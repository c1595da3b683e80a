import TopicClient.Proofs.Http.Hops

/-!
# Exchanges under way

An exchange takes its time, and the agent may be used for others before it is over. A `Transfer` is
one that has come some way. It takes one step at a time: it sends a request, or its reply arrives.
Taken alone, the steps of a post are `Agent.post` (`Transfer.completes_ofPost`). In company the
replies and the cookies may be others, but the requests are still those of one chain, which begins
with the post and goes on where a response leads: `Transfer.Follows`.
-/

namespace TopicClient.Http

inductive Transfer where
  /-- A request is to be sent, after which `limit` redirections may be followed. -/
  | asking (start : Url) (limit : ℕ) (request : Request)
  /-- A request has been sent, unless the server cannot be reached, and its reply is to arrive. -/
  | awaiting (start : Url) (limit : ℕ) (request : Request) (reply : Option Reply)
  | finished (outcome : Except Failure Answer)

namespace Transfer

def ofPost (text : String) (body : Option String) : Transfer :=
  match Url.parse text with
  | .error cause => .finished (.error (.unreadable cause))
  | .ok url =>
    let url := url.withoutAccount
    if isWebScheme url.scheme then
      if isUri url then .asking url redirectLimit { method := .post, url, body }
      else .finished (.error (.unusable url))
    else .finished (.error (.foreignScheme url))

def keep (a : Agent) (url : Url) : Option Reply → Agent
  | some (.response response) => a.keepCookies url response
  | _ => a

def arrive (start : Url) (limit : ℕ) (r : Request) : Option Reply → Transfer
  | none => .finished (.error (.refused start))
  | some .closed => .finished (.error (.closed start))
  | some .silent => .finished (.error (.timedOut start))
  | some (.response response) =>
    match response.redirection? r.url with
    | none => .finished (.ok ⟨response.status, response.text⟩)
    | some url =>
      match limit with
      | 0 => .finished (.error (.tooManyRedirects r.url))
      | limit + 1 =>
        if isWebScheme url.scheme then
          .asking start limit (r.redirect response.status url)
        else .finished (.error (.foreignScheme url))

/-- The next step of an exchange: the request that reaches the server in it, if one does, and what
becomes of the agent and of the exchange. -/
def step? (a : Agent) : Transfer → Option (Option Received × Agent × Transfer)
  | .asking start limit r =>
    let (reply, a') := a.send r
    some (reply.map fun _ => r.received (a.jar.select a.now r.url), a',
      .awaiting start limit r reply)
  | .awaiting start limit r reply => some (none, keep a r.url reply, arrive start limit r reply)
  | .finished _ => none

inductive Completes : Agent → Transfer → Except Failure Answer → Agent → Prop
  | finished {a : Agent} {outcome : Except Failure Answer} : Completes a (.finished outcome) outcome a
  | step {a a' a'' : Agent} {t t' : Transfer} {sent : Option Received}
      {outcome : Except Failure Answer} (hs : t.step? a = some (sent, a', t'))
      (h : Completes a' t' outcome a'') : Completes a t outcome a''

theorem step?_asking {start : Url} {limit : ℕ} {a a' : Agent} {r : Request}
    {reply : Option Reply} (h : a.send r = (reply, a')) :
    (asking start limit r).step? a =
      some (reply.map fun _ => r.received (a.jar.select a.now r.url), a',
        .awaiting start limit r reply) := by
  rw [step?, h]

theorem completes_asking (start : Url) (limit : ℕ) (a : Agent) (r : Request) :
    Completes a (.asking start limit r) (Agent.follow start limit a r).1
      (Agent.follow start limit a r).2 := by
  induction limit using Nat.strongRecOn generalizing a r with
  | ind limit ih =>
    rw [Agent.follow.eq_def]
    cases hs : a.send r with
    | mk reply a₁ =>
      refine .step (step?_asking hs) (.step rfl ?_)
      simp only [hs]
      rcases reply with _ | response | _ | _
      · exact .finished
      · simp only [keep, arrive]
        cases response.redirection? r.url with
        | none => exact .finished
        | some url =>
          cases limit with
          | zero => exact .finished
          | succ limit =>
            simp only
            split_ifs
            · exact ih limit (Nat.lt_succ_self limit) _ _
            · exact .finished
      · exact .finished
      · exact .finished

/-- Taken alone, the steps of a post are the post. -/
theorem completes_ofPost (a : Agent) (text : String) (body : Option String) :
    Completes a (.ofPost text body) (a.post text body).1 (a.post text body).2 := by
  unfold ofPost Agent.post
  cases Url.parse text with
  | error cause => exact .finished
  | ok url =>
    simp only
    split_ifs
    · exact completes_asking _ _ _ _
    · exact .finished
    · exact .finished

theorem ofPost_of_target?_eq_some {text : String} {url : Url}
    (h : Agent.target? text = some url) (body : Option String) :
    ofPost text body = .asking url redirectLimit { method := .post, url, body } := by
  unfold Agent.target? at h
  unfold ofPost
  cases hparse : Url.parse text with
  | error cause =>
    rw [hparse] at h
    cases h
  | ok url' =>
    simp only [hparse] at h ⊢
    split_ifs at h with hboth
    cases h
    rw [if_pos hboth.1, if_pos hboth.2]

theorem ofPost_of_target?_eq_none {text : String} (h : Agent.target? text = none)
    (body : Option String) : ∃ failure, ofPost text body = .finished (.error failure) := by
  unfold Agent.target? at h
  unfold ofPost
  cases hparse : Url.parse text with
  | error cause => exact ⟨_, rfl⟩
  | ok url =>
    simp only [hparse] at h ⊢
    split_ifs with hscheme huri
    · rw [if_pos ⟨hscheme, huri⟩] at h
      cases h
    · exact ⟨_, rfl⟩
    · exact ⟨_, rfl⟩

theorem received_of_step? {a a' : Agent} {t t' : Transfer} {sent : Option Received}
    (h : t.step? a = some (sent, a', t')) : a'.received = a.received ++ sent.toList := by
  cases t with
  | asking start limit r =>
    cases hs : a.send r with
    | mk reply a₁ =>
      rw [step?_asking hs] at h
      cases h
      cases reply with
      | none => rw [Agent.eq_of_send_eq_none hs]; exact (List.append_nil _).symm
      | some reply => exact (Agent.received_of_send hs).1
  | awaiting start limit r reply =>
    cases h
    rcases reply with _ | response | _ | _ <;> exact (List.append_nil _).symm
  | finished outcome => cases h

end Transfer

/-- The hops of a post, as far as it has come: the first is the post, and every other one is where
the response before it leads. -/
structure Trail (text : String) (body : Option String) (hops : List Hop) : Prop where
  first : ∀ h ∈ hops.head?, ∃ url, Agent.target? text = some url ∧
    h.request = { method := .post, url, body }
  linked : hops.IsChain fun h k => h.Asks k.request

namespace Trail

variable {text : String} {body : Option String} {hops : List Hop} {r : Request}

theorem nil : Trail text body [] where
  first := by simp
  linked := .nil

theorem single {url : Url} (h : Agent.target? text = some url) (reply : Option Reply) :
    Trail text body [⟨{ method := .post, url, body }, reply⟩] where
  first := by simp [h]
  linked := List.isChain_singleton _

theorem dropLast {hop : Hop} (h : Trail text body (hops ++ [hop])) : Trail text body hops where
  first k hk := h.first k (by rw [List.head?_append, Option.mem_def.1 hk]; rfl)
  linked := h.linked.left_of_append

theorem concat {hop : Hop} (h : Trail text body (hops ++ [hop])) (hasks : hop.Asks r)
    (reply : Option Reply) : Trail text body ((hops ++ [hop]) ++ [⟨r, reply⟩]) where
  first k hk := by
    refine h.first k ?_
    rw [List.append_assoc] at hk
    cases hops with
    | nil => exact hk
    | cons _ _ => exact hk
  linked := by
    refine h.linked.append (List.isChain_singleton _) fun x hx y hy => ?_
    rw [List.getLast?_concat] at hx
    cases hx
    cases hy
    exact hasks

theorem reply {reply : Option Reply} (h : Trail text body (hops ++ [⟨r, reply⟩]))
    (reply' : Option Reply) : Trail text body (hops ++ [⟨r, reply'⟩]) where
  first k hk := by
    cases hops with
    | nil => cases hk; exact h.first ⟨r, reply⟩ rfl
    | cons _ _ => exact h.first k hk
  linked := by
    refine h.linked.left_of_append.append (List.isChain_singleton _) fun x hx y hy => ?_
    cases hy
    exact (List.isChain_append.1 h.linked).2.2 x hx ⟨r, reply⟩ rfl

/-- Every request of a post is a post of the body, or asks for a place without a body. -/
theorem carries (h : Trail text body hops) : ∀ hop ∈ hops,
    hop.request.method = .post ∧ hop.request.body = body ∨
      hop.request.method = .get ∧ hop.request.body = none := by
  refine h.linked.induction _ _ ?_ ?_
  · rintro hop next ⟨response, url, _, _, _, hnext⟩ hcarries
    rw [hnext, Request.redirect]
    split_ifs
    · exact hcarries
    · exact .inr ⟨rfl, rfl⟩
  · intro hne
    obtain ⟨url, _, hrequest⟩ := h.first _ (List.head_mem_head? hne)
    rw [hrequest]
    exact .inl ⟨rfl, rfl⟩

end Trail

namespace Transfer

inductive Follows (text : String) (body : Option String) : List Hop → Transfer → Prop
  | asking {hops : List Hop} {start : Url} {limit : ℕ} {r : Request}
      (ht : Trail text body (hops ++ [⟨r, none⟩])) (hl : hops.length + limit = redirectLimit) :
      Follows text body hops (.asking start limit r)
  | awaiting {hops : List Hop} {start : Url} {limit : ℕ} {r : Request} {reply : Reply}
      (ht : Trail text body (hops ++ [⟨r, some reply⟩]))
      (hl : hops.length + limit = redirectLimit) :
      Follows text body (hops ++ [⟨r, some reply⟩]) (.awaiting start limit r (some reply))
  /-- The request has not reached the server. -/
  | refused {hops : List Hop} {start : Url} {limit : ℕ} {r : Request}
      (ht : Trail text body hops) (hl : hops.length ≤ redirectLimit) :
      Follows text body hops (.awaiting start limit r none)
  | finished {hops : List Hop} {outcome : Except Failure Answer} (ht : Trail text body hops)
      (hl : hops.length ≤ redirectLimit + 1) : Follows text body hops (.finished outcome)

section

variable {text : String} {body : Option String} {hops : List Hop}

theorem Follows.trail {t : Transfer} (h : Follows text body hops t) :
    Trail text body hops ∧ hops.length ≤ redirectLimit + 1 := by
  cases h with
  | asking ht hl => exact ⟨ht.dropLast, by omega⟩
  | awaiting ht hl => exact ⟨ht, by rw [List.length_append, List.length_singleton]; omega⟩
  | refused ht hl => exact ⟨ht, by omega⟩
  | finished ht hl => exact ⟨ht, hl⟩

theorem follows_ofPost (text : String) (body : Option String) :
    Follows text body [] (.ofPost text body) := by
  cases h : Agent.target? text with
  | some url =>
    rw [ofPost_of_target?_eq_some h]
    exact .asking (.single h none) (Nat.zero_add _)
  | none =>
    obtain ⟨failure, heq⟩ := ofPost_of_target?_eq_none h body
    rw [heq]
    exact .finished .nil (Nat.zero_le _)

/-- A reply ends an exchange, or leads to its next request. -/
theorem follows_arrive {start : Url} {limit : ℕ} {r : Request} {reply : Reply}
    (ht : Trail text body (hops ++ [⟨r, some reply⟩])) (hl : hops.length + limit = redirectLimit) :
    Follows text body (hops ++ [⟨r, some reply⟩]) (arrive start limit r (some reply)) := by
  have hlength : (hops ++ [(⟨r, some reply⟩ : Hop)]).length = hops.length + 1 := by simp
  have hover : ∀ outcome, Follows text body (hops ++ [⟨r, some reply⟩]) (.finished outcome) :=
    fun _ => .finished ht (by omega)
  rcases reply with response | _ | _
  · rw [arrive]
    cases hr : response.redirection? r.url with
    | none => exact hover _
    | some url =>
      cases limit with
      | zero => exact hover _
      | succ limit =>
        simp only
        split_ifs with hw
        · exact .asking (ht.concat ⟨response, url, rfl, hr, hw, rfl⟩ none) (by omega)
        · exact hover _
  · exact hover _
  · exact hover _

/-- A step of an exchange goes on with its hops. -/
theorem Follows.step? {a a' : Agent} {t t' : Transfer} {sent : Option Received}
    (h : Follows text body hops t) (hs : t.step? a = some (sent, a', t')) :
    ∃ more, Follows text body (hops ++ more) t' ∧ List.Forall₂ Hop.Shows more sent.toList := by
  cases h with
  | @asking _ start limit r ht hl =>
    cases hsend : a.send r with
    | mk reply a₁ =>
      rw [step?_asking hsend] at hs
      cases hs
      cases reply with
      | none =>
        refine ⟨[], ?_, .nil⟩
        rw [List.append_nil]
        exact .refused ht.dropLast (by omega)
      | some reply => exact ⟨[⟨r, some reply⟩], .awaiting (ht.reply _) hl, .cons ⟨_, rfl⟩ .nil⟩
  | awaiting ht hl =>
    cases hs
    refine ⟨[], ?_, .nil⟩
    rw [List.append_nil]
    exact follows_arrive ht hl
  | refused ht hl =>
    cases hs
    refine ⟨[], ?_, .nil⟩
    rw [List.append_nil]
    exact .finished ht (by omega)
  | finished ht hl => cases hs

end

end Transfer

end TopicClient.Http
