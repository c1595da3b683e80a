import Mathlib.Data.Nat.Notation
import Mathlib.Tactic.SplitIfs
import TopicClient.Http.Agent

/-!
# Chains of redirections

`Agent.Leads` follows the responses of a server from the first request to the response that
redirects nowhere. An exchange has an answer exactly when such a response comes, and the answer is
the status of that response together with its body.
-/

namespace TopicClient.Http

/-- The text of a response is there exactly when all of its body has come. -/
theorem Response.text_eq_ok_iff {r : Response} {text : String} :
    r.text = .ok text ↔
      isBodiless r.status = true ∧ text = "" ∨
        isBodiless r.status = false ∧ r.ending = .complete ∧
          text = String.ofList (Text.decodeLossy r.body) := by
  rw [Response.text]
  by_cases hb : isBodiless r.status = true
  · simp [hb, eq_comm]
  · cases he : r.ending <;> simp [hb, eq_comm]

theorem isSpecial_of_isWebScheme {s : Url.Scheme} (h : isWebScheme s = true) :
    s.isSpecial = true ∧ s ≠ .file := by
  cases s with
  | http => exact ⟨rfl, nofun⟩
  | https => exact ⟨rfl, nofun⟩
  | _ => cases h

namespace Agent

/-- A request leads, over at most `limit` redirections, to a response that redirects nowhere. The
cookies of every response on the way are kept. -/
inductive Leads : ℕ → Agent → Request → Response → Agent → Prop
  | here {limit : ℕ} {a a₁ : Agent} {r : Request} {response : Response}
      (hs : a.send r = (some (.response response), a₁))
      (hr : response.redirection? r.url = none) :
      Leads limit a r response (a₁.keepCookies r.url response)
  | next {limit : ℕ} {a a₁ a₂ : Agent} {r : Request} {hop response : Response} {url : Url}
      (hs : a.send r = (some (.response hop), a₁)) (hr : hop.redirection? r.url = some url)
      (hw : isWebScheme url.scheme = true)
      (h : Leads limit (a₁.keepCookies r.url hop) (r.redirect hop.status url)
        response a₂) :
      Leads (limit + 1) a r response a₂

/-- What comes back is the next reply of the server, or an empty response when it has no more. -/
theorem reply_of_send {a a' : Agent} {r : Request} {reply : Reply}
    (h : a.send r = (some reply, a')) :
    (reply = .response {} ∨ reply ∈ a.server.replies) ∧
      a'.server.replies ⊆ a.server.replies := by
  unfold send at h
  split_ifs at h
  · cases hreplies : a.server.replies with
    | nil =>
      simp only [hreplies] at h
      cases h
      exact ⟨.inl rfl, fun _ hmem => hreplies ▸ hmem⟩
    | cons reply' replies =>
      simp only [hreplies] at h
      cases h
      exact ⟨.inr List.mem_cons_self, List.subset_cons_self _ _⟩
  · cases h

theorem Leads.reply {limit : ℕ} {a a' : Agent} {r : Request} {response : Response}
    (h : Leads limit a r response a') :
    response = {} ∨ .response response ∈ a.server.replies := by
  induction h with
  | here hs hr => exact (reply_of_send hs).1.imp_left Reply.response.inj
  | next hs hr hw _ ih => exact ih.imp_right fun hmem => (reply_of_send hs).2 hmem

theorem leads_of_follow_eq_ok {start : Url} {limit : ℕ} {a a' : Agent} {r : Request}
    {answer : Answer} (h : follow start limit a r = (.ok answer, a')) :
    ∃ response, Leads limit a r response a' ∧ answer = ⟨response.status, response.text⟩ := by
  induction limit using Nat.strongRecOn generalizing a r with
  | ind limit ih =>
    rw [follow.eq_def] at h
    cases hs : a.send r with
    | mk reply a₁ =>
      simp only [hs] at h
      rcases reply with _ | response | _ | _
      · cases h
      · cases hr : response.redirection? r.url with
        | none =>
          simp only [hr] at h
          cases h
          exact ⟨response, .here hs hr, rfl⟩
        | some url =>
          cases limit with
          | zero =>
            simp only [hr] at h
            cases h
          | succ limit =>
            by_cases hw : isWebScheme url.scheme = true
            · simp only [hr, hw, if_true] at h
              obtain ⟨last, hlast, rfl⟩ := ih limit (Nat.lt_succ_self limit) h
              exact ⟨last, .next hs hr hw hlast, rfl⟩
            · simp only [hr, hw, Bool.false_eq_true, if_false] at h
              cases h
      · cases h
      · cases h

theorem follow_eq_ok_of_leads {start : Url} {limit : ℕ} {a a' : Agent} {r : Request}
    {response : Response} (h : Leads limit a r response a') :
    follow start limit a r = (.ok ⟨response.status, response.text⟩, a') := by
  induction h with
  | here hs hr => rw [follow.eq_def]; simp only [hs, hr]
  | next hs hr hw _ ih => rw [follow]; simp only [hs, hr, if_pos hw, ih]

theorem follow_eq_ok_iff {start : Url} {limit : ℕ} {a a' : Agent} {r : Request}
    {answer : Answer} :
    follow start limit a r = (.ok answer, a') ↔
      ∃ response, Leads limit a r response a' ∧ answer = ⟨response.status, response.text⟩ := by
  refine ⟨leads_of_follow_eq_ok, ?_⟩
  rintro ⟨response, h, rfl⟩
  exact follow_eq_ok_of_leads h

/-- An answer to a post is the end of a chain that begins with the post. -/
theorem exists_leads_of_post_eq_ok {a a' : Agent} {text : String} {body : Option String}
    {answer : Answer} (h : a.post text body = (.ok answer, a')) :
    ∃ url response, Url.parse text = .ok url ∧
      Leads redirectLimit a { method := .post, url := url.withoutAccount, body } response a' ∧
      answer = ⟨response.status, response.text⟩ := by
  rw [post] at h
  cases hparse : Url.parse text with
  | error cause =>
    simp only [hparse] at h
    cases h
  | ok url =>
    simp only [hparse] at h
    split_ifs at h
    · obtain ⟨response, hleads, hanswer⟩ := follow_eq_ok_iff.1 h
      exact ⟨url, response, rfl, hleads, hanswer⟩
    · cases h
    · cases h

section Steps

variable (start : Url) (limit : ℕ) {a a₁ : Agent} {r : Request} {response : Response} {url : Url}

theorem follow_of_answer (hs : a.send r = (some (.response response), a₁))
    (hr : response.redirection? r.url = none) :
    follow start limit a r =
      (.ok ⟨response.status, response.text⟩, a₁.keepCookies r.url response) :=
  follow_eq_ok_of_leads (.here hs hr)

theorem follow_of_redirection (hs : a.send r = (some (.response response), a₁))
    (hr : response.redirection? r.url = some url) (hw : isWebScheme url.scheme = true) :
    follow start (limit + 1) a r = follow start limit (a₁.keepCookies r.url response)
      (r.redirect response.status url) := by
  rw [follow]
  simp only [hs, hr, if_pos hw]

/-- An exchange that is broken off has come no further than its last request. -/
theorem follow_of_failure (hs : a.send r = (some (.response response), a₁))
    (hr : response.redirection? r.url = some url)
    (hw : limit = 0 ∨ isWebScheme url.scheme = false) :
    ∃ failure, follow start limit a r = (.error failure, a₁.keepCookies r.url response) := by
  cases limit with
  | zero =>
    rw [follow]
    simp only [hs, hr]
    exact ⟨_, rfl⟩
  | succ limit =>
    have hforeign := hw.resolve_left (Nat.succ_ne_zero limit)
    rw [follow]
    simp only [hs, hr, hforeign, Bool.false_eq_true, if_false]
    exact ⟨_, rfl⟩

theorem follow_of_no_response {reply : Option Reply} (hs : a.send r = (reply, a₁))
    (hreply : ∀ response, reply ≠ some (.response response)) :
    ∃ failure, follow start limit a r = (.error failure, a₁) := by
  rw [follow.eq_def]
  simp only [hs]
  rcases reply with _ | response | _ | _
  · exact ⟨_, rfl⟩
  · exact absurd rfl (hreply response)
  · exact ⟨_, rfl⟩
  · exact ⟨_, rfl⟩

end Steps

section Congruence

variable {a a' : Agent}

/-- What comes back for a request, and what the server has left, does not depend on the request, the
cookies or the time. -/
theorem send_congr (h : a.server = a'.server) (r r' : Request) :
    (a.send r).1 = (a'.send r').1 ∧ (a.send r).2.server = (a'.send r').2.server := by
  unfold send
  rw [h]
  split_ifs
  · cases a'.server.replies with
    | nil => exact ⟨rfl, rfl⟩
    | cons reply replies => exact ⟨rfl, rfl⟩
  · exact ⟨rfl, h⟩

theorem follow_congr (start : Url) (limit : ℕ) (h : a.server = a'.server) (r : Request) :
    (follow start limit a r).1 = (follow start limit a' r).1 := by
  induction limit using Nat.strongRecOn generalizing a a' r with
  | ind limit ih =>
    obtain ⟨hreply, hserver⟩ := send_congr h r r
    rw [follow.eq_def, follow.eq_def]
    cases hs : a.send r with
    | mk reply a₁ =>
      cases hs' : a'.send r with
      | mk reply' a₁' =>
        rw [hs, hs'] at hreply hserver
        obtain rfl : reply = reply' := hreply
        simp only [hs, hs']
        rcases reply with _ | response | _ | _
        · rfl
        · cases hr : response.redirection? r.url with
          | none => simp only [hr]
          | some url =>
            cases limit with
            | zero => simp only [hr]
            | succ limit =>
              simp only [hr]
              split_ifs
              · have hkept : (a₁.keepCookies r.url response).server =
                    (a₁'.keepCookies r.url response).server := hserver
                exact ih limit (Nat.lt_succ_self limit) hkept _
              · rfl
        · rfl
        · rfl

/-- The outcome of a post depends on nothing but the server. -/
theorem post_congr (h : a.server = a'.server) (text : String) (body : Option String) :
    (a.post text body).1 = (a'.post text body).1 := by
  unfold post
  cases Url.parse text with
  | error cause => rfl
  | ok url =>
    simp only
    split_ifs
    · exact follow_congr _ _ h _
    · rfl
    · rfl

end Congruence

section Received

variable {a a' : Agent} {r : Request} {reply : Reply}

def target? (text : String) : Option Url :=
  match Url.parse text with
  | .error _ => none
  | .ok url =>
    let url := url.withoutAccount
    if isWebScheme url.scheme ∧ isUri url then some url else none

theorem target?_eq_some_iff {text : String} {target : Url} :
    target? text = some target ↔
      ∃ url, Url.parse text = .ok url ∧ isWebScheme url.scheme = true ∧
        isUri url.withoutAccount = true ∧ url.withoutAccount = target := by
  unfold target?
  cases Url.parse text with
  | error cause => simp
  | ok url =>
    have hscheme : url.withoutAccount.scheme = url.scheme := rfl
    simp only [hscheme, Option.ite_none_right_eq_some, Option.some.injEq, Except.ok.injEq,
      exists_eq_left', and_assoc]

theorem post_of_target?_eq_none {text : String} (h : target? text = none) (a : Agent)
    (body : Option String) : ∃ failure, a.post text body = (.error failure, a) := by
  unfold target? at h
  unfold post
  cases hparse : Url.parse text with
  | error cause => exact ⟨_, rfl⟩
  | ok url =>
    simp only [hparse] at h ⊢
    split_ifs with hscheme huri
    · rw [if_pos ⟨hscheme, huri⟩] at h
      cases h
    · exact ⟨_, rfl⟩
    · exact ⟨_, rfl⟩

theorem post_of_target?_eq_some {text : String} {url : Url} (h : target? text = some url)
    (a : Agent) (body : Option String) :
    a.post text body = follow url redirectLimit a { method := .post, url, body } := by
  unfold target? at h
  unfold post
  cases hparse : Url.parse text with
  | error cause =>
    rw [hparse] at h
    cases h
  | ok url' =>
    simp only [hparse] at h ⊢
    split_ifs at h with hboth
    cases h
    simp only [hboth.1, if_true, hboth.2]

theorem received_of_send (h : a.send r = (some reply, a')) :
    a'.received = a.received ++ [r.received (a.jar.select a.now r.url)] ∧
      a'.server.isReachable = true := by
  unfold send at h
  split_ifs at h with hreachable
  · split at h
    · cases h
      exact ⟨rfl, hreachable⟩
    · cases h
      exact ⟨rfl, hreachable⟩
  · cases h

theorem exists_send_of_isReachable (h : a.server.isReachable = true) (r : Request) :
    ∃ reply a', a.send r = (some reply, a') := by
  unfold send
  rw [if_pos h]
  split
  · exact ⟨_, _, rfl⟩
  · exact ⟨_, _, rfl⟩

theorem eq_of_send_eq_none (h : a.send r = (none, a')) : a' = a := by
  unfold send at h
  split_ifs at h
  · split at h
    · cases h
    · cases h
  · cases h
    rfl

/-- Another request is only made where a response leads to the web and may be followed. -/
theorem received_of_follow_or (start : Url) (limit : ℕ) (h : a.send r = (some reply, a')) :
    (follow start limit a r).2.received = a'.received ∨
      ∃ response url, reply = .response response ∧ response.redirection? r.url = some url ∧
        isWebScheme url.scheme = true ∧ limit ≠ 0 := by
  by_cases hresponse : ∃ response, reply = .response response
  · obtain ⟨response, rfl⟩ := hresponse
    cases hr : response.redirection? r.url with
    | none =>
      rw [follow_of_answer start limit h hr]
      exact .inl rfl
    | some url =>
      by_cases hw : limit = 0 ∨ isWebScheme url.scheme = false
      · obtain ⟨failure, hfollow⟩ := follow_of_failure start limit h hr hw
        rw [hfollow]
        exact .inl rfl
      · obtain ⟨hlimit, hweb⟩ := not_or.1 hw
        exact .inr ⟨response, url, rfl, hr, (Bool.not_eq_false _).mp hweb, hlimit⟩
  · have hreply : ∀ response, some reply ≠ some (.response response) := by
      intro response heq
      exact hresponse ⟨response, Option.some.inj heq⟩
    obtain ⟨failure, hfollow⟩ := follow_of_no_response start limit h hreply
    rw [hfollow]
    exact .inl rfl

/-- An exchange with a server that can be reached begins with its request, and more follow it only
as far as redirections may be followed. -/
theorem exists_received_of_follow (start : Url) (limit : ℕ) (a : Agent) (r : Request)
    (h : a.server.isReachable = true) :
    ∃ rs, rs.length ≤ limit ∧ (follow start limit a r).2.received =
      a.received ++ r.received (a.jar.select a.now r.url) :: rs := by
  induction limit generalizing a r with
  | zero =>
    obtain ⟨reply, a₁, hs⟩ := exists_send_of_isReachable h r
    obtain hstop | ⟨_, _, _, _, _, hlimit⟩ := received_of_follow_or start 0 hs
    · exact ⟨[], Nat.le_refl 0, hstop.trans (received_of_send hs).1⟩
    · exact absurd rfl hlimit
  | succ limit ih =>
    obtain ⟨reply, a₁, hs⟩ := exists_send_of_isReachable h r
    obtain ⟨hreceived, hreachable⟩ := received_of_send hs
    obtain hstop | ⟨response, url, rfl, hr, hw, _⟩ := received_of_follow_or start (limit + 1) hs
    · exact ⟨[], Nat.zero_le _, hstop.trans hreceived⟩
    · have hkept : (a₁.keepCookies r.url response).received = a₁.received := rfl
      obtain ⟨rs, hlength, hrs⟩ := ih (a₁.keepCookies r.url response)
        (r.redirect response.status url) hreachable
      rw [follow_of_redirection start limit hs hr hw, hrs, hkept, hreceived, List.append_assoc]
      refine ⟨_ :: rs, ?_, rfl⟩
      exact Nat.succ_le_succ hlength

end Received

end Agent

end TopicClient.Http
