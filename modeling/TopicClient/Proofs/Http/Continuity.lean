import TopicClient.Proofs.Cookie.Session
import TopicClient.Proofs.Http.Chain
import TopicClient.Proofs.Http.Uri

/-!
# Sessions over the exchanges of an agent

As long as a server names sessions in its cookies, and leads to no other server, every request
carries the session that was named last before it, and nothing else: `Continues` says so of all the
requests that an agent has made, and every exchange keeps it (`Continues.follow`).
-/

namespace TopicClient.Http

open Cookie (Jar sessionName sessionHeader)

def Reply.cookieHeaders : Reply → List String
  | .response r => r.cookieHeaders
  | .closed | .silent => []

def handedOut (replies : List Reply) : List String := replies.flatMap Reply.cookieHeaders

structure Received.CarriesLatest (headers : List String) (r : Received) : Prop where
  latest : ∀ id, headers.getLast? = some (sessionHeader id) →
    r.cookieTexts = some [sessionName ++ "=" ++ id]
  nothing : headers = [] → r.cookieTexts = none

@[simp] theorem Request.url_redirect (r : Request) (status : ℕ) (url : Url) :
    (r.redirect status url).url = url := by
  rw [redirect]
  split_ifs <;> rfl

def Response.StaysAt (given : Url) (r : Response) : Prop :=
  ∀ next, r.redirection? given = some next → next.origin = given.origin

/-- The responses to the first requests name sessions, and lead to no other server. -/
def Serves (given : Url) (replies : List Reply) (n : ℕ) : Prop :=
  ∀ response, .response response ∈ replies.take n →
    response.NamesSessions ∧ response.StaysAt given

theorem Response.redirection?_eq_some_iff {r : Response} {url next : Url} :
    r.redirection? url = some next ↔ isRedirection r.status = true ∧
      ∃ reference u, r.header? "location" = some reference ∧
        Url.resolve url reference = .ok u ∧ Uri.ofUrl? u = some next := by
  rw [redirection?]
  split_ifs with hstatus
  · simp only [hstatus, true_and, Option.bind_eq_some_iff, exists_and_left]
    refine exists_congr fun reference => and_congr_right fun _ => exists_congr fun u =>
      and_congr_left fun _ => ?_
    cases Url.resolve url reference with
    | error e => simp [Except.toOption]
    | ok u => simp [Except.toOption]
  · simp [hstatus]

/-- It does not matter which URL of the server the response is for. -/
theorem Response.StaysAt.origin_eq {given url next : Url} {r : Response} (h : r.StaysAt given)
    (hurl : url.origin = given.origin) (hnext : r.redirection? url = some next) :
    next.origin = given.origin := by
  obtain ⟨hstatus, reference, u, hreference, hresolve, huri⟩ := redirection?_eq_some_iff.1 hnext
  obtain hsame | hresolve' := Url.origin_eq_or_of_resolve hurl hresolve
  · rw [Uri.origin_of_ofUrl? huri, hsame, hurl]
  · exact h next (redirection?_eq_some_iff.2 ⟨hstatus, reference, u, hreference, hresolve', huri⟩)

theorem Response.namesSessions_empty : NamesSessions {} := by
  intro header hmem
  cases hmem

theorem Response.staysAt_empty (given : Url) : StaysAt given {} := by
  intro next hnext
  cases hnext

namespace Agent

/-- The requests that have reached a server so far, which had replies for them: a request has met the
reply that stands in its place, and carries the session named in the replies before it. -/
structure Continuous (replies : List Reply) (a : Agent) : Prop where
  served : a.server.replies = replies.drop a.received.length
  carries : ∀ (i : ℕ) r, a.received[i]? = some r →
    r.CarriesLatest (handedOut (replies.take i))

def serverHost (given : Url) : Url.Host := (given.authority.map (·.host)).getD (.verbatim "")

structure Continues (given : Url) (replies : List Reply) (a : Agent) : Prop
    extends Continuous replies a where
  keeps : Jar.Keeps (serverHost given) (handedOut (replies.take a.received.length)) a.jar

structure IsAt (given url : Url) : Prop where
  origin_eq : url.origin = given.origin
  isRooted : url.IsRooted
  isWeb : isWebScheme url.scheme = true
  isSome : url.authority.isSome = true

section Steps

variable {given : Url} {replies : List Reply} {a a' : Agent} {r : Request} {reply : Reply}

theorem IsAt.exists_authority {url : Url} (h : IsAt given url) :
    ∃ authority, url.authority = some authority ∧ authority.host = serverHost given := by
  obtain ⟨authority, hauthority⟩ := Option.isSome_iff_exists.1 h.isSome
  have horigin := congrArg Prod.snd h.origin_eq
  simp only [Url.origin, hauthority, Option.map_some] at horigin
  cases hgiven : given.authority with
  | none =>
    rw [hgiven] at horigin
    cases horigin
  | some other =>
    rw [hgiven] at horigin
    refine ⟨authority, hauthority, ?_⟩
    rw [serverHost, hgiven]
    exact congrArg Prod.fst (Option.some.inj horigin)

theorem IsAt.redirection {url next : Url} {response : Response} (h : IsAt given url)
    (hstays : response.StaysAt given) (hnext : response.redirection? url = some next) :
    IsAt given next := by
  have horigin := hstays.origin_eq h.origin_eq hnext
  have hsame : next.origin = url.origin := horigin.trans h.origin_eq.symm
  have hscheme : next.scheme = url.scheme := congrArg Prod.fst hsame
  have hweb : isWebScheme next.scheme = true := hscheme ▸ h.isWeb
  refine ⟨horigin, ?_, hweb, ?_⟩
  · obtain ⟨_, reference, u, _, hresolve, huri⟩ := Response.redirection?_eq_some_iff.1 hnext
    have hsame : u.scheme = next.scheme := congrArg Prod.fst (Uri.origin_of_ofUrl? huri).symm
    obtain ⟨hspecial, hfile⟩ := isSpecial_of_isWebScheme hweb
    rw [← hsame] at hspecial hfile
    exact Uri.isRooted_of_ofUrl? huri (Url.isRooted_of_resolve hspecial hfile
      (isSpecial_of_isWebScheme h.isWeb) h.isRooted hresolve)
  · have hauthority := congrArg Prod.snd hsame
    obtain ⟨authority, hsome⟩ := Option.isSome_iff_exists.1 h.isSome
    simp only [Url.origin, hsome, Option.map_some] at hauthority
    obtain ⟨other, hother, _⟩ := Option.map_eq_some_iff.1 hauthority
    rw [hother]
    rfl

theorem IsAt.withoutAccount {url : Url} (h : IsAt given url) : IsAt given url.withoutAccount where
  origin_eq := (Url.origin_withoutAccount url).trans h.origin_eq
  isRooted := h.isRooted
  isWeb := h.isWeb
  isSome := by
    have hsome := h.isSome
    rw [Url.withoutAccount, Option.isSome_map]
    exact hsome

/-- A request takes the next reply, and the cookies that the jar picks for it. -/
theorem eq_of_send (h : a.send r = (some reply, a')) :
    reply = a.server.replies.head?.getD (.response {}) ∧
      a' = { a with
        received := a.received ++ [r.received (a.jar.select a.now r.url)]
        server := { a.server with replies := a.server.replies.tail } } := by
  obtain ⟨⟨isReachable, replies⟩, jar, now, received⟩ := a
  unfold send at h
  split_ifs at h
  · cases replies with
    | nil =>
      cases h
      exact ⟨rfl, rfl⟩
    | cons reply' replies =>
      cases h
      exact ⟨rfl, rfl⟩
  · cases h

theorem cookieTexts_received (r : Request) (cookies : List Cookie) :
    (r.received cookies).cookieTexts = if cookies.isEmpty then none
      else some ((cookies.map (·.render)).mergeSort fun a b => decide (a ≤ b)) :=
  rfl

/-- A request to the server carries the session that the jar keeps. -/
theorem Continues.carriesLatest (h : a.Continues given replies) (hurl : IsAt given r.url) :
    (r.received (a.jar.select a.now r.url)).CarriesLatest
      (handedOut (replies.take a.received.length)) := by
  obtain ⟨authority, hauthority, hhost⟩ := hurl.exists_authority
  rcases h.keeps.select a.now hauthority hhost hurl.isRooted with
    ⟨hnil, hselect⟩ | ⟨id, hlast, hselect⟩
  · refine ⟨fun id hid => ?_, fun _ => ?_⟩
    · rw [hnil] at hid
      cases hid
    · rw [hselect]
      rfl
  · refine ⟨fun id' hid => ?_, fun hnil => ?_⟩
    · rw [hlast] at hid
      rw [← Cookie.sessionHeader_injective (Option.some.inj hid), hselect, cookieTexts_received]
      simp [Cookie.session, Cookie.render]
    · rw [hnil] at hlast
      cases hlast

/-- A request is one more of those that carry their session, once its reply has been taken in. -/
theorem Continues.send (h : a.Continues given replies) (hurl : IsAt given r.url)
    (hs : a.send r = (some reply, a')) {jar : Jar}
    (hjar : Jar.Keeps (serverHost given)
      (handedOut (replies.take a.received.length) ++ reply.cookieHeaders) jar) :
    ({ a' with jar } : Agent).Continues given replies := by
  obtain ⟨hreply, rfl⟩ := eq_of_send hs
  have hlength : (a.received ++ [r.received (a.jar.select a.now r.url)]).length =
      a.received.length + 1 := by simp
  refine ⟨⟨?_, fun i r' hr' => ?_⟩, ?_⟩
  · simp only [hlength]
    rw [h.served, List.tail_drop]
  · rw [List.getElem?_append] at hr'
    split_ifs at hr' with hi
    · exact h.carries i r' hr'
    · have hi' : i = a.received.length := by
        by_contra hne
        rw [List.getElem?_eq_none (by simp; omega)] at hr'
        cases hr'
      subst hi'
      simp only [Nat.sub_self, List.getElem?_cons_zero, Option.some.injEq] at hr'
      subst hr'
      exact h.carriesLatest hurl
  · have htake : handedOut (replies.take (a.received.length + 1)) =
        handedOut (replies.take a.received.length) ++ reply.cookieHeaders := by
      have hnext : a.server.replies.head? = replies[a.received.length]? := by
        rw [h.served, List.head?_drop]
      rw [hnext] at hreply
      rw [handedOut, List.take_add_one, List.flatMap_append, hreply]
      cases replies[a.received.length]? with
      | none => rfl
      | some next => simp [handedOut]
    simp only [hlength]
    rw [htake]
    exact hjar

end Steps

section Exchanges

variable {given : Url} {replies : List Reply} {a a' : Agent} {r : Request} {n : ℕ}

theorem Continuous.response_of_send (h : a.Continuous replies) {response : Response}
    (hs : a.send r = (some (.response response), a')) :
    response = {} ∨ .response response ∈ replies.take (a.received.length + 1) := by
  have hreply := (eq_of_send hs).1
  rw [h.served, List.head?_drop] at hreply
  cases hnext : replies[a.received.length]? with
  | none =>
    rw [hnext] at hreply
    exact .inl (Reply.response.inj hreply)
  | some reply =>
    rw [hnext] at hreply
    obtain rfl : Reply.response response = reply := hreply
    rw [List.take_add_one, hnext]
    exact .inr (List.mem_append_right _ (List.mem_singleton_self _))

/-- The request of an exchange has been received, whatever follows it. -/
theorem lt_length_received_follow (start : Url) (limit : ℕ) {reply : Reply}
    (hs : a.send r = (some reply, a')) :
    a.received.length < (follow start limit a r).2.received.length := by
  have hreachable : a.server.isReachable = true := by
    rw [send] at hs
    split_ifs at hs with hreachable
    · exact hreachable
    · cases hs
  obtain ⟨rs, _, hrs⟩ := exists_received_of_follow start limit a r hreachable
  rw [hrs, List.length_append, List.length_cons]
  omega

theorem Continues.keepCookies (h : a.Continues given replies) (hserves : Serves given replies n)
    (hn : a.received.length < n) (hurl : IsAt given r.url) {response : Response}
    (hs : a.send r = (some (.response response), a')) :
    (a'.keepCookies r.url response).Continues given replies ∧ response.StaysAt given := by
  have hresponse : response.NamesSessions ∧ response.StaysAt given := by
    rcases h.response_of_send hs with rfl | hmem
    · exact ⟨Response.namesSessions_empty, Response.staysAt_empty given⟩
    · exact hserves response (List.take_subset_take_left replies hn hmem)
  have hjar : a'.jar = a.jar := by rw [(eq_of_send hs).2]
  obtain ⟨authority, hauthority, hhost⟩ := hurl.exists_authority
  refine ⟨h.send hurl hs ?_, hresponse.2⟩
  rw [hjar]
  exact Response.keeps_receiveAll hresponse.1 h.keeps a'.now hauthority hhost

/-- An exchange with the server keeps the session, over all redirections and whatever its end. -/
theorem Continues.follow (start : Url) (limit : ℕ) (hserves : Serves given replies n)
    {a : Agent} (h : a.Continues given replies) {r : Request} (hurl : IsAt given r.url)
    (hn : (follow start limit a r).2.received.length ≤ n) :
    (follow start limit a r).2.Continues given replies := by
  induction limit using Nat.strongRecOn generalizing a r with
  | ind limit ih =>
    cases hs : a.send r with
    | mk reply a₁ =>
      by_cases hresponse : ∃ response, reply = some (.response response)
      · obtain ⟨response, rfl⟩ := hresponse
        have hlength := (lt_length_received_follow start limit hs).trans_le hn
        obtain ⟨hkept, hstays⟩ := h.keepCookies hserves hlength hurl hs
        cases hr : response.redirection? r.url with
        | none =>
          rw [follow_of_answer start limit hs hr]
          exact hkept
        | some url =>
          by_cases hw : limit = 0 ∨ isWebScheme url.scheme = false
          · obtain ⟨failure, hfollow⟩ := follow_of_failure start limit hs hr hw
            rw [hfollow]
            exact hkept
          · obtain ⟨hlimit, hweb⟩ := not_or.1 hw
            obtain ⟨limit, rfl⟩ := Nat.exists_eq_succ_of_ne_zero hlimit
            rw [follow_of_redirection start limit hs hr ((Bool.not_eq_false _).mp hweb)] at hn ⊢
            have hnext : IsAt given (r.redirect response.status url).url := by
              rw [Request.url_redirect]
              exact hurl.redirection hstays hr
            exact ih limit (Nat.lt_succ_self limit) hkept hnext hn
      · have hnone : ∀ response, reply ≠ some (.response response) :=
          fun response heq => hresponse ⟨response, heq⟩
        obtain ⟨failure, hfollow⟩ := follow_of_no_response start limit hs hnone
        rw [hfollow]
        cases reply with
        | none =>
          rw [eq_of_send_eq_none hs]
          exact h
        | some reply =>
          -- The connection is lost: the request has been made, and nothing is handed out.
          have hjar : a₁.jar = a.jar := by rw [(eq_of_send hs).2]
          have hlost : reply.cookieHeaders = [] := by
            cases reply with
            | response response => exact absurd rfl (hnone response)
            | closed => rfl
            | silent => rfl
          have hkeeps := h.keeps
          rw [← List.append_nil (handedOut _), ← hlost, ← hjar] at hkeeps
          exact h.send hurl hs hkeeps

theorem Continues.post (h : a.Continues given replies) (hserves : Serves given replies n)
    {text : String} (htext : ∀ url, target? text = some url → IsAt given url)
    (body : Option String) (hn : (a.post text body).2.received.length ≤ n) :
    (a.post text body).2.Continues given replies := by
  cases htarget : target? text with
  | none =>
    obtain ⟨failure, hpost⟩ := post_of_target?_eq_none htarget a body
    rw [hpost]
    exact h
  | some url =>
    rw [post_of_target?_eq_some htarget] at hn ⊢
    exact h.follow url redirectLimit hserves (htext url htarget) hn

theorem length_received_le_post (a : Agent) (text : String) (body : Option String) :
    a.received.length ≤ (a.post text body).2.received.length := by
  cases htarget : target? text with
  | none =>
    obtain ⟨failure, hpost⟩ := post_of_target?_eq_none htarget a body
    rw [hpost]
  | some url =>
    rw [post_of_target?_eq_some htarget]
    cases hs : a.send { method := .post, url, body } with
    | mk reply a' =>
      cases reply with
      | none =>
        obtain ⟨failure, hfollow⟩ := follow_of_no_response url redirectLimit hs nofun
        rw [hfollow, eq_of_send_eq_none hs]
      | some reply => exact (lt_length_received_follow url redirectLimit hs).le

end Exchanges

end Agent

end TopicClient.Http
