import Mathlib.Data.List.Chain
import Mathlib.Data.List.Forall2
import TopicClient.Proofs.Http.Chain

/-!
# The requests of an exchange

An exchange is a row of hops: a request each, with what came back for it. `Route` says which rows
are possible: the first request is the one asked for, every other one is where the response before
it leads, and the row ends only where it must. `exists_travels` finds the row of every
exchange, and says that the exchange has an answer exactly when the row ends in a response that
leads nowhere else.
-/

namespace TopicClient.Http

/-- What becomes of the request of the given number, counted from 0. -/
def Server.reply? (s : Server) (n : ℕ) : Option Reply :=
  if s.isReachable then some (s.replies.getD n (.response {})) else none

structure Hop where
  request : Request
  reply : Option Reply

namespace Hop

def Final (h : Hop) (response : Response) : Prop :=
  h.reply = some (.response response) ∧ response.redirection? h.request.url = none

def Asks (h : Hop) (r : Request) : Prop :=
  ∃ response url, h.reply = some (.response response) ∧
    response.redirection? h.request.url = some url ∧ isWebScheme url.scheme = true ∧
    r = h.request.redirect response.status url

def Shows (h : Hop) (received : Received) : Prop :=
  ∃ cookies, received = h.request.received cookies

end Hop

def Ends (hops : List Hop) (response : Response) : Prop :=
  ∃ h, hops.getLast? = some h ∧ h.Final response

structure Route (limit : ℕ) (s : Server) (r : Request) (hops : List Hop) : Prop where
  first : hops.head?.map Hop.request = some r
  linked : hops.IsChain fun h k => h.Asks k.request
  length_le : hops.length ≤ limit + 1
  replies : ∀ n h, hops[n]? = some h → h.reply = s.reply? n
  /-- A redirection to the web is followed unless there have been too many. -/
  stops : ∀ h r', hops.getLast? = some h → h.Asks r' → hops.length = limit + 1

theorem ends_singleton_iff {h : Hop} {response : Response} :
    Ends [h] response ↔ h.Final response := by
  simp [Ends]

theorem ends_cons_iff {h : Hop} {hops : List Hop} (hne : hops ≠ []) {response : Response} :
    Ends (h :: hops) response ↔ Ends hops response := by
  rw [Ends, List.getLast?_cons_of_ne_nil hne, Ends]

section Sending

variable {a a' : Agent} {r : Request}

theorem reply?_of_send {reply : Option Reply} (h : a.send r = (reply, a')) :
    a.server.reply? 0 = reply := by
  unfold Agent.send at h
  rw [Server.reply?]
  split_ifs at h ⊢
  · cases hreplies : a.server.replies with
    | nil =>
      rw [hreplies] at h
      exact congrArg Prod.fst h
    | cons reply' replies =>
      rw [hreplies] at h
      exact congrArg Prod.fst h
  · exact congrArg Prod.fst h

theorem reply?_succ_of_send {reply : Reply} (h : a.send r = (some reply, a')) (n : ℕ) :
    a.server.reply? (n + 1) = a'.server.reply? n := by
  unfold Agent.send at h
  split_ifs at h with hreachable
  · cases hreplies : a.server.replies with
    | nil =>
      simp only [hreplies] at h
      cases h
      simp [Server.reply?, hreplies]
    | cons reply' replies =>
      simp only [hreplies] at h
      cases h
      simp [Server.reply?, hreplies]
  · cases h

end Sending

namespace Route

variable {limit : ℕ} {s s' : Server} {r r' : Request} {hops : List Hop}

theorem single (h : ∀ r', Hop.Asks ⟨r, s.reply? 0⟩ r' → limit = 0) :
    Route limit s r [⟨r, s.reply? 0⟩] where
  first := rfl
  linked := List.isChain_singleton _
  length_le := Nat.le_add_left 1 limit
  replies := by
    intro n h hn
    cases n with
    | zero => cases hn; rfl
    | succ n => cases hn
  stops := by
    intro hop r' hlast hasks
    cases hlast
    rw [h r' hasks]
    rfl

theorem ne_nil (h : Route limit s r hops) : hops ≠ [] := by
  rintro rfl
  cases h.first

theorem cons (h : Route limit s' r' hops) (hasks : Hop.Asks ⟨r, s.reply? 0⟩ r')
    (hs : ∀ n, s.reply? (n + 1) = s'.reply? n) :
    Route (limit + 1) s r (⟨r, s.reply? 0⟩ :: hops) where
  first := rfl
  linked := by
    obtain ⟨hop, hops, rfl⟩ := List.exists_cons_of_ne_nil h.ne_nil
    refine List.isChain_cons_cons.2 ⟨?_, h.linked⟩
    obtain rfl : hop.request = r' := Option.some.inj h.first
    exact hasks
  length_le := Nat.succ_le_succ h.length_le
  replies := by
    intro n hop hn
    cases n with
    | zero => cases hn; rfl
    | succ n =>
      rw [hs]
      exact h.replies n hop hn
  stops := by
    intro hop r'' hlast hasks'
    rw [List.getLast?_cons_of_ne_nil h.ne_nil] at hlast
    rw [List.length_cons, h.stops hop r'' hlast hasks']

/-- Once the method is GET there is no body, and it stays so. -/
theorem method_of_linked {h k : Hop} (hasks : h.Asks k.request)
    (hget : h.request.method = .get → h.request.body = none) :
    (k.request.method = .get → k.request.body = none) ∧
      (h.request.method = .get → k.request.method = .get) := by
  obtain ⟨response, url, _, _, _, hk⟩ := hasks
  rw [hk, Request.redirect]
  split_ifs
  · exact ⟨hget, id⟩
  · exact ⟨fun _ => rfl, fun _ => rfl⟩

/-- A request that has become a GET stays one, and no GET has a body. -/
theorem pairwise_get (h : Route limit s r hops) (hr : r.method = .get → r.body = none) :
    (∀ hop ∈ hops, hop.request.method = .get → hop.request.body = none) ∧
      hops.Pairwise fun h k => h.request.method = .get → k.request.method = .get := by
  have hlinked := h.linked
  have hfirst := h.first
  clear h
  induction hops generalizing r with
  | nil => cases hfirst
  | cons hop hops ih =>
    obtain rfl : hop.request = r := Option.some.inj hfirst
    cases hops with
    | nil => exact ⟨List.forall_mem_singleton.2 hr, List.pairwise_singleton _ _⟩
    | cons next hops =>
      obtain ⟨hasks, hlinked⟩ := List.isChain_cons_cons.1 hlinked
      obtain ⟨hbody, hmethod⟩ := method_of_linked hasks hr
      obtain ⟨hall, hpairwise⟩ := ih hbody hlinked rfl
      refine ⟨List.forall_mem_cons.2 ⟨hr, hall⟩, List.pairwise_cons.2 ⟨?_, hpairwise⟩⟩
      intro k hk hget
      rcases List.mem_cons.1 hk with rfl | hk
      · exact hmethod hget
      · exact (List.pairwise_cons.1 hpairwise).1 k hk (hmethod hget)

end Route

structure Travels (a : Agent) (limit : ℕ) (r : Request) (hops : List Hop)
    (o : Except Failure Answer) (a' : Agent) : Prop where
  route : Route limit a.server r hops
  answer_iff : ∀ answer, o = .ok answer ↔
    ∃ response, Ends hops response ∧ answer = ⟨response.status, response.text⟩
  received : a.server.isReachable = true →
    ∃ sent, a'.received = a.received ++ sent ∧ List.Forall₂ Hop.Shows hops sent

section

variable {start : Url} {a a₁ : Agent} {limit : ℕ} {r : Request}

theorem route_of_send {reply : Option Reply} (hs : a.send r = (reply, a₁))
    (hstop : ∀ r', Hop.Asks ⟨r, reply⟩ r' → limit = 0) :
    Route limit a.server r [⟨r, reply⟩] := by
  have hreply := reply?_of_send hs
  subst hreply
  exact .single hstop

theorem shows_of_send {reply : Option Reply} (hs : a.send r = (reply, a₁)) {b : Agent}
    (hb : b.received = a₁.received) (hreachable : a.server.isReachable = true) :
    ∃ sent, b.received = a.received ++ sent ∧ List.Forall₂ Hop.Shows [⟨r, reply⟩] sent := by
  obtain ⟨reply', a', hs'⟩ := Agent.exists_send_of_isReachable hreachable r
  obtain ⟨rfl, rfl⟩ := Prod.mk.inj (hs.symm.trans hs')
  exact ⟨_, hb.trans (Agent.received_of_send hs').1, .cons ⟨_, rfl⟩ .nil⟩

theorem travels_of_failure {reply : Option Reply} (hs : a.send r = (reply, a₁))
    (hstop : ∀ r', Hop.Asks ⟨r, reply⟩ r' → limit = 0)
    (hfinal : ∀ response, ¬ Hop.Final ⟨r, reply⟩ response) (failure : Failure) {b : Agent}
    (hb : b.received = a₁.received) : Travels a limit r [⟨r, reply⟩] (.error failure) b where
  route := route_of_send hs hstop
  answer_iff answer := by
    refine ⟨nofun, ?_⟩
    rintro ⟨response, hends, _⟩
    exact absurd (ends_singleton_iff.1 hends) (hfinal response)
  received := shows_of_send hs hb

theorem travels_of_answer {response : Response} (hs : a.send r = (some (.response response), a₁))
    (hr : response.redirection? r.url = none) :
    Travels a limit r [⟨r, some (.response response)⟩] (.ok ⟨response.status, response.text⟩)
      (a₁.keepCookies r.url response) where
  route := by
    refine route_of_send hs ?_
    rintro r' ⟨response', url, heq, hnext, _⟩
    cases heq
    exact nomatch hr.symm.trans hnext
  answer_iff answer := by
    constructor
    · intro hanswer
      exact ⟨response, ends_singleton_iff.2 ⟨rfl, hr⟩, (Except.ok.inj hanswer).symm⟩
    · rintro ⟨response', hends, rfl⟩
      obtain ⟨heq, _⟩ := ends_singleton_iff.1 hends
      cases heq
      rfl
  received := shows_of_send hs rfl

/-- An exchange that ends with its first request is one hop. -/
theorem travels_single {reply : Option Reply} (hs : a.send r = (reply, a₁))
    (hstop : ∀ r', Hop.Asks ⟨r, reply⟩ r' → limit = 0) :
    Travels a limit r [⟨r, reply⟩] (Agent.follow start limit a r).1
      (Agent.follow start limit a r).2 := by
  by_cases hresponse : ∃ response, reply = some (.response response)
  · obtain ⟨response, rfl⟩ := hresponse
    cases hr : response.redirection? r.url with
    | none =>
      rw [Agent.follow_of_answer start limit hs hr]
      exact travels_of_answer hs hr
    | some url =>
      have hw : limit = 0 ∨ isWebScheme url.scheme = false := by
        by_cases hweb : isWebScheme url.scheme = true
        · exact .inl (hstop _ ⟨response, url, rfl, hr, hweb, rfl⟩)
        · exact .inr (Bool.eq_false_iff.2 hweb)
      obtain ⟨failure, hfollow⟩ := Agent.follow_of_failure start limit hs hr hw
      rw [hfollow]
      refine travels_of_failure hs hstop (fun response' hfinal => ?_) failure rfl
      obtain ⟨heq, hnone⟩ := hfinal
      cases heq
      exact nomatch hr.symm.trans hnone
  · obtain ⟨failure, hfollow⟩ := Agent.follow_of_no_response start limit hs
      fun response heq => hresponse ⟨response, heq⟩
    rw [hfollow]
    exact travels_of_failure hs hstop (fun response hfinal => hresponse ⟨response, hfinal.1⟩)
      failure rfl

/-- Where a redirection is followed, the hops of the rest come after the first one. -/
theorem Travels.cons {response : Response} {url : Url} {hops : List Hop}
    (hs : a.send r = (some (.response response), a₁))
    (hr : response.redirection? r.url = some url) (hw : isWebScheme url.scheme = true)
    {o : Except Failure Answer} {a' : Agent}
    (h : Travels (a₁.keepCookies r.url response) limit
      (r.redirect response.status url) hops o a') :
    Travels a (limit + 1) r (⟨r, some (.response response)⟩ :: hops) o a' where
  route := by
    have hreply := reply?_of_send hs
    have hasks : Hop.Asks ⟨r, a.server.reply? 0⟩ (r.redirect response.status url) :=
      ⟨response, url, hreply, hr, hw, rfl⟩
    have hroute := h.route.cons hasks fun n => reply?_succ_of_send hs n
    rw [hreply] at hroute
    exact hroute
  answer_iff := by
    intro answer
    simp only [ends_cons_iff h.route.ne_nil]
    exact h.answer_iff answer
  received := by
    intro _
    obtain ⟨hreceived, hreachable⟩ := Agent.received_of_send hs
    obtain ⟨sent, hsent, hshows⟩ := h.received hreachable
    have hkept : (a₁.keepCookies r.url response).received = a₁.received := rfl
    rw [hkept, hreceived, List.append_assoc] at hsent
    exact ⟨_, hsent, .cons ⟨_, rfl⟩ hshows⟩

end

/-- An exchange makes the requests of a route, and has an answer if the last response leads nowhere
else. -/
theorem exists_travels (start : Url) (limit : ℕ) (a : Agent) (r : Request) :
    ∃ hops, Travels a limit r hops (Agent.follow start limit a r).1
      (Agent.follow start limit a r).2 := by
  induction limit generalizing a r with
  | zero => exact ⟨_, travels_single rfl fun _ _ => rfl⟩
  | succ limit ih =>
    cases hs : a.send r with
    | mk reply a₁ =>
      by_cases hasks : ∃ r', Hop.Asks ⟨r, reply⟩ r'
      · obtain ⟨_, response, url, rfl, hr, hw, rfl⟩ := hasks
        obtain ⟨hops, hops_travel⟩ := ih (a₁.keepCookies r.url response)
          (r.redirect response.status url)
        rw [Agent.follow_of_redirection start limit hs hr hw]
        exact ⟨_, hops_travel.cons hs hr hw⟩
      · exact ⟨_, travels_single hs fun r' h => absurd ⟨r', h⟩ hasks⟩

/-- Nothing reaches a server that cannot be reached. -/
theorem received_of_not_isReachable (start : Url) (limit : ℕ) {a : Agent} (r : Request)
    (h : a.server.isReachable = false) :
    (Agent.follow start limit a r).2.received = a.received := by
  have hs : a.send r = (none, a) := by rw [Agent.send, h]; rfl
  obtain ⟨failure, hfollow⟩ := Agent.follow_of_no_response start limit hs fun _ => nofun
  rw [hfollow]

end TopicClient.Http
