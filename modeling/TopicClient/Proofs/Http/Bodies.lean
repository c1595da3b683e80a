import Mathlib.Data.List.Forall2
import TopicClient.Proofs.Http.Chain

/-!
# What an exchange does not depend on

An exchange has the same end whatever requests have been made before (`post_having`), and whatever is
in the body that is posted (`sameButBodies_post`): the requests that follow it differ in their bodies
at most.
-/

namespace TopicClient.Http

structure Received.SameButBody (r r' : Received) : Prop where
  method_eq : r.method = r'.method
  target_eq : r.target = r'.target
  contentType_eq : r.contentType = r'.contentType
  cookies_eq : r.cookies = r'.cookies

structure Request.SameButBody (r r' : Request) : Prop where
  method_eq : r.method = r'.method
  url_eq : r.url = r'.url
  isSome_eq : r.body.isSome = r'.body.isSome

namespace Request.SameButBody

variable {r r' : Request}

theorem received (h : r.SameButBody r') (cookies : List Cookie) :
    (r.received cookies).SameButBody (r'.received cookies) where
  method_eq := h.method_eq
  target_eq := congrArg Url.target h.url_eq
  contentType_eq := by
    have hbody := h.isSome_eq
    unfold Request.received
    cases hr : r.body <;> cases hr' : r'.body <;> simp [hr, hr'] at hbody ⊢
  cookies_eq := rfl

theorem redirect (h : r.SameButBody r') (status : ℕ) (url : Url) :
    (r.redirect status url).SameButBody (r'.redirect status url) := by
  unfold Request.redirect
  split_ifs
  · exact ⟨h.method_eq, rfl, h.isSome_eq⟩
  · exact ⟨rfl, rfl, rfl⟩

end Request.SameButBody

namespace Agent

/-! ## The requests before -/

section Before

variable (a : Agent) (rs : List Received)

def having : Agent := { a with received := rs ++ a.received }

theorem send_having (r : Request) :
    (a.having rs).send r = ((a.send r).1, (a.send r).2.having rs) := by
  obtain ⟨⟨isReachable, replies⟩, jar, now, received⟩ := a
  unfold send having
  split_ifs
  · cases replies with
    | nil => simp
    | cons reply replies => simp
  · rfl

theorem follow_having (start : Url) (limit : ℕ) (a : Agent) (r : Request) :
    follow start limit (a.having rs) r =
      ((follow start limit a r).1, (follow start limit a r).2.having rs) := by
  induction limit using Nat.strongRecOn generalizing a r with
  | ind limit ih =>
    have hsend := send_having a rs r
    rw [follow.eq_def, follow.eq_def]
    cases hs : a.send r with
    | mk reply a₁ =>
      rw [hs] at hsend
      simp only [hsend, hs]
      rcases reply with _ | response | _ | _
      · rfl
      · simp only
        cases response.redirection? r.url with
        | none => rfl
        | some url =>
          cases limit with
          | zero => rfl
          | succ limit =>
            simp only
            split_ifs
            · exact ih limit (Nat.lt_succ_self limit) (a₁.keepCookies r.url response) _
            · rfl
      · rfl
      · rfl

theorem post_having (text : String) (body : Option String) :
    (a.having rs).post text body =
      ((a.post text body).1, (a.post text body).2.having rs) := by
  unfold post
  cases Url.parse text with
  | error cause => rfl
  | ok url =>
    simp only
    split_ifs
    · exact follow_having rs _ _ a _
    · rfl
    · rfl

end Before

/-! ## The body that is posted -/

structure SameButBodies (a a' : Agent) : Prop where
  server_eq : a.server = a'.server
  jar_eq : a.jar = a'.jar
  now_eq : a.now = a'.now
  received : List.Forall₂ Received.SameButBody a.received a'.received

section Bodies

variable {a a' : Agent} {r r' : Request}

theorem SameButBodies.refl (a : Agent) : a.SameButBodies a :=
  ⟨rfl, rfl, rfl, List.forall₂_same.2 fun _ _ => ⟨rfl, rfl, rfl, rfl⟩⟩

theorem SameButBodies.send (h : a.SameButBodies a') (hr : r.SameButBody r') :
    (a.send r).1 = (a'.send r').1 ∧ (a.send r).2.SameButBodies (a'.send r').2 := by
  obtain ⟨⟨isReachable, replies⟩, jar, now, received⟩ := a
  obtain ⟨server, jar', now', received'⟩ := a'
  obtain ⟨hserver, hjar, hnow, hreceived⟩ := h
  simp only at hserver hjar hnow hreceived
  subst hserver hjar hnow
  have hmore : List.Forall₂ Received.SameButBody
      (received ++ [r.received (jar.select now r.url)])
      (received' ++ [r'.received (jar.select now r'.url)]) := by
    refine List.rel_append hreceived (.cons ?_ .nil)
    rw [← hr.url_eq]
    exact hr.received _
  unfold Agent.send
  split_ifs
  · cases replies with
    | nil => exact ⟨rfl, rfl, rfl, rfl, hmore⟩
    | cons reply replies => exact ⟨rfl, rfl, rfl, rfl, hmore⟩
  · exact ⟨rfl, rfl, rfl, rfl, hreceived⟩

theorem SameButBodies.keepCookies (h : a.SameButBodies a') (url : Url) (response : Response) :
    (a.keepCookies url response).SameButBodies (a'.keepCookies url response) where
  server_eq := h.server_eq
  jar_eq := by
    rw [Agent.keepCookies, Agent.keepCookies, h.jar_eq, h.now_eq]
  now_eq := h.now_eq
  received := h.received

theorem SameButBodies.follow (start : Url) (limit : ℕ) (h : a.SameButBodies a')
    (hr : r.SameButBody r') :
    (follow start limit a r).1 = (follow start limit a' r').1 ∧
      (follow start limit a r).2.SameButBodies (follow start limit a' r').2 := by
  induction limit using Nat.strongRecOn generalizing a a' r r' with
  | ind limit ih =>
    obtain ⟨hreply, hagent⟩ := h.send hr
    rw [follow.eq_def, follow.eq_def start limit a']
    cases hs : a.send r with
    | mk reply a₁ =>
      cases hs' : a'.send r' with
      | mk reply' a₁' =>
        rw [hs, hs'] at hreply hagent
        obtain rfl : reply = reply' := hreply
        simp only [hs, hs']
        rcases reply with _ | response | _ | _
        · exact ⟨rfl, hagent⟩
        · have hkept := hagent.keepCookies r.url response
          rw [← hr.url_eq]
          cases hnext : response.redirection? r.url with
          | none =>
            simp only [hnext]
            exact ⟨trivial, hkept⟩
          | some url =>
            cases limit with
            | zero =>
              simp only [hnext]
              exact ⟨trivial, hkept⟩
            | succ limit =>
              simp only [hnext]
              split_ifs
              · exact ih limit (Nat.lt_succ_self limit) hkept (hr.redirect _ _)
              · exact ⟨rfl, hkept⟩
        · exact ⟨rfl, hagent⟩
        · exact ⟨rfl, hagent⟩

/-- What is in the body of a post changes no more than the bodies of the requests that it makes. -/
theorem sameButBodies_post (a : Agent) (text body body' : String) :
    (a.post text (some body)).1 = (a.post text (some body')).1 ∧
      (a.post text (some body)).2.SameButBodies (a.post text (some body')).2 := by
  unfold post
  cases Url.parse text with
  | error cause => exact ⟨rfl, .refl a⟩
  | ok url =>
    simp only
    split_ifs
    · exact (SameButBodies.refl a).follow _ _ ⟨rfl, rfl, rfl⟩
    · exact ⟨rfl, .refl a⟩
    · exact ⟨rfl, .refl a⟩

end Bodies

end Agent

end TopicClient.Http
