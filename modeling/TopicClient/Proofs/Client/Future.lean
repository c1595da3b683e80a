import TopicClient.Client.Events
import TopicClient.Proofs.Client.Posting
import TopicClient.Proofs.Http.Transfer
import TopicClient.Proofs.Registry.Interleaving

/-!
# Subscriptions under way

A call of `subscribe` puts its handler in place and returns a future. Only when the future is polled
does the server hear of the subscription. A `Stage` is how far it has come, one step at a time; it
may be dropped after any of them. Taken alone, the steps of a future are `announce`
(`Stage.completes_fresh`). In company it still makes one post at most, and its requests are those of
that post: `Stage.Stands`.
-/

namespace TopicClient.Announcing

open Client
open Delivery (Deed)
open Http (Received Transfer Hop Trail)

/-- What a call of `subscribe` promises: to tell the server of the subscription whose handler it has
put in place. -/
structure Promise where
  subscription : Subscription
  handler : Handler

namespace Promise

def registration (p : Promise) : String × Handler := (p.subscription.key, p.handler)

def Covers (p : Promise) (topic : String) : Prop :=
  p.subscription.key = topic ∨ Glob.Receives p.subscription.key topic

instance (p : Promise) (topic : String) : Decidable (p.Covers topic) :=
  inferInstanceAs (Decidable (_ ∨ _))

end Promise

inductive Act where
  /-- A registration, or a step of a dispatch. -/
  | does (deed : Deed)
  /-- A call of `subscribe` returns its future. -/
  | promises (promise : Promise)
  /-- The future of a number calls the post. -/
  | posts (future : ℕ)
  /-- The server receives a request from the future of a number. -/
  | sends (future : ℕ) (request : Received)
  /-- The server receives the requests of other calls. -/
  | others (requests : List Received)

namespace Act

def deeds : Act → List Deed
  | does deed => [deed]
  | _ => []

def promised : Act → List Promise
  | promises promise => [promise]
  | _ => []

def isPost (i : ℕ) : Act → Bool
  | posts j => j = i
  | _ => false

def sent (i : ℕ) : Act → List Received
  | sends j request => if j = i then [request] else []
  | _ => []

def requests : Act → List Received
  | sends _ request => [request]
  | others requests => requests
  | _ => []

end Act

def deeds (as : List Act) : List Deed := as.flatMap Act.deeds

def promises (as : List Act) : List Promise := as.flatMap Act.promised

def posted (i : ℕ) (as : List Act) : ℕ := as.countP (Act.isPost i)

def sent (i : ℕ) (as : List Act) : List Received := as.flatMap (Act.sent i)

def requests (as : List Act) : List Received := as.flatMap Act.requests

def note (c : Client) (records : List Log.Record) : Client :=
  { c with delivery := { c.delivery with logs := c.delivery.logs ++ records } }

def announcement (c : Client) : Log.Record :=
  record .debug .transport "POST" [("url", .plain (endpoint c.base Path.subscribe))]

def conclude (o : Except Http.Failure Http.Answer) : Action (Outcome Unit) := do
  modify fun c => note c (postRecords (endpoint c.base Path.subscribe) o).tail
  logOutcome Path.subscribe (outcomeOf o)
  return (outcomeOf o).map fun _ => ()

theorem run_conclude (c : Client) (o : Except Http.Failure Http.Answer) :
    (conclude o).run c = ((outcomeOf o).map fun _ => (),
      ((logOutcome Path.subscribe (outcomeOf o)).run
        (note c (postRecords (endpoint c.base Path.subscribe) o).tail)).2) := rfl

theorem postRecords_eq_cons (c : Client) (o : Except Http.Failure Http.Answer) :
    postRecords (endpoint c.base Path.subscribe) o =
      announcement c :: (postRecords (endpoint c.base Path.subscribe) o).tail := by
  rcases o with failure | ⟨status, failure | text⟩
  · rfl
  · rfl
  · rfl

/-- An announcement is the record of its post, the exchange, and the rest. -/
theorem run_announce (subscription : Subscription) (c : Client) :
    (announce subscription).run c =
      (conclude (c.exchange Path.subscribe (some subscription.body)).1).run
        { note c [announcement c] with
          agent := (c.exchange Path.subscribe (some subscription.body)).2 } := by
  have hcall : (postBody Path.subscribe (some subscription.body)).run c = _ := run_postBody c _ _
  rw [announce, logged, bind_assoc, run_bind_of_run hcall, run_conclude, afterExchange,
    postRecords_eq_cons]
  simp only [note, List.append_assoc]
  rfl

theorem exists_run_logOutcome (path : String) (o : Outcome Accepted) :
    ∃ r : Log.Record, r.source = .transport ∧
      ∀ c : Client, (logOutcome path o).run c = ((), note c [r]) := by
  rcases o with (_ | _ | _ | _) | accepted
  · exact ⟨_, rfl, fun _ => rfl⟩
  · exact ⟨_, rfl, fun _ => rfl⟩
  · exact ⟨_, rfl, fun _ => rfl⟩
  · exact ⟨_, rfl, fun _ => rfl⟩
  · exact ⟨_, rfl, fun _ => rfl⟩

theorem source_of_mem_tail_postRecords {url : String} {o : Except Http.Failure Http.Answer} :
    ∀ r ∈ (postRecords url o).tail, r.source = .transport := by
  intro r hr
  rcases o with failure | ⟨status, failure | text⟩
  · exact absurd hr List.not_mem_nil
  · exact absurd hr List.not_mem_nil
  · rw [postRecords, List.tail_cons] at hr
    split_ifs at hr
    · exact absurd hr List.not_mem_nil
    · rw [List.mem_singleton.1 hr]
      rfl

inductive Stage where
  /-- It has never been polled. -/
  | fresh
  | posting (transfer : Transfer)
  | done (outcome : Outcome Unit)
  | dropped

namespace Stage

/-- The next step of the future of a number: what is done, and what becomes of the client and of the
future. -/
def step? (i : ℕ) (subscription : Subscription) (c : Client) :
    Stage → Option (List Act × Client × Stage)
  | .fresh =>
    some ([.posts i], note c [announcement c],
      .posting (.ofPost (endpoint c.base Path.subscribe) (some subscription.body)))
  | .posting (.finished o) => some ([], ((conclude o).run c).2, .done ((conclude o).run c).1)
  | .posting t =>
    (t.step? c.agent).map fun (sent, agent, t) =>
      (sent.toList.map (.sends i), { c with agent }, .posting t)
  | .done _ | .dropped => none

inductive Step (i : ℕ) (subscription : Subscription) (c : Client) :
    Stage → List Act → Client → Stage → Prop
  | posts : Step i subscription c .fresh [.posts i] (note c [announcement c])
      (.posting (.ofPost (endpoint c.base Path.subscribe) (some subscription.body)))
  | goes {t t' : Transfer} {sent : Option Received} {agent : Http.Agent}
      (ht : t.step? c.agent = some (sent, agent, t')) :
      Step i subscription c (.posting t) (sent.toList.map (.sends i)) { c with agent } (.posting t')
  | ends {o : Except Http.Failure Http.Answer} : Step i subscription c (.posting (.finished o)) []
      ((conclude o).run c).2 (.done ((conclude o).run c).1)

/-- Without anything in between, a future comes to this outcome and leaves this client. -/
inductive Completes (i : ℕ) (subscription : Subscription) :
    Client → Stage → Outcome Unit → Client → Prop
  | done {c : Client} {outcome : Outcome Unit} :
      Completes i subscription c (.done outcome) outcome c
  | step {c c' c'' : Client} {stage stage' : Stage} {acts : List Act} {outcome : Outcome Unit}
      (hs : Step i subscription c stage acts c' stage')
      (h : Completes i subscription c' stage' outcome c'') :
      Completes i subscription c stage outcome c''

section

variable {i : ℕ} {subscription : Subscription} {c c' : Client} {stage stage' : Stage}
  {acts : List Act}

theorem step?_eq_some_iff : stage.step? i subscription c = some (acts, c', stage') ↔
    Step i subscription c stage acts c' stage' := by
  constructor
  · intro h
    rcases stage with _ | (_ | _ | o) | _ | _
    · cases h; exact .posts
    · simp only [step?] at h
      obtain ⟨⟨sent, agent, t'⟩, ht, heq⟩ := Option.map_eq_some_iff.1 h
      cases heq
      exact .goes ht
    · simp only [step?] at h
      obtain ⟨⟨sent, agent, t'⟩, ht, heq⟩ := Option.map_eq_some_iff.1 h
      cases heq
      exact .goes ht
    · cases h; exact .ends
    · cases h
    · cases h
  · intro h
    cases h with
    | posts => rfl
    | @goes t t' _ _ ht =>
      cases t with
      | asking => simp only [step?, ht]; rfl
      | awaiting => simp only [step?, ht]; rfl
      | finished => cases ht
    | ends => rfl

theorem completes_posting {t : Transfer} {o : Except Http.Failure Http.Answer} {a a' : Http.Agent}
    (h : t.Completes a o a') (ha : c.agent = a) :
    Completes i subscription c (.posting t) ((conclude o).run { c with agent := a' }).1
      ((conclude o).run { c with agent := a' }).2 := by
  induction h generalizing c with
  | finished => subst ha; exact .step .ends .done
  | step hs _ ih =>
    subst ha
    exact .step (.goes hs) (ih rfl)

/-- Taken alone, the steps of a future are those of an announcement. -/
theorem completes_fresh (i : ℕ) (subscription : Subscription) (c : Client) :
    Completes i subscription c .fresh ((announce subscription).run c).1
      ((announce subscription).run c).2 := by
  have hpost := Transfer.completes_ofPost c.agent (endpoint c.base Path.subscribe)
    (some subscription.body)
  rw [run_announce]
  exact .step .posts (completes_posting hpost rfl)

/-- A step changes nothing but the agent and the log, and what it logs is of the transport. -/
theorem Step.exists_note (h : Step i subscription c stage acts c' stage') :
    ∃ agent records, c' = note { c with agent } records ∧
      agent.received = c.agent.received ++ requests acts ∧
      ∀ r ∈ records, r.source = .transport := by
  cases h with
  | posts => exact ⟨c.agent, _, rfl, (List.append_nil _).symm, List.forall_mem_singleton.2 rfl⟩
  | @goes t t' sent agent ht =>
    refine ⟨agent, [], ?_, ?_, nofun⟩
    · rw [note, List.append_nil]
    · rw [Transfer.received_of_step? ht]
      cases sent <;> rfl
  | @ends o =>
    obtain ⟨r, hr, hlog⟩ := exists_run_logOutcome Path.subscribe (outcomeOf o)
    refine ⟨c.agent, (postRecords (endpoint c.base Path.subscribe) o).tail ++ [r], ?_,
      (List.append_nil _).symm, ?_⟩
    · rw [run_conclude, hlog, note, note, note, List.append_assoc]
    · rw [List.forall_mem_append, List.forall_mem_singleton]
      exact ⟨source_of_mem_tail_postRecords, hr⟩

/-- What is done in a step concerns neither the registry nor the calls of `subscribe`, and no other
future. -/
theorem Step.of_ne (h : Step i subscription c stage acts c' stage') :
    deeds acts = [] ∧ promises acts = [] ∧ ∀ j, j ≠ i → posted j acts = 0 ∧ sent j acts = [] := by
  cases h with
  | posts =>
    refine ⟨rfl, rfl, fun j hj => ⟨?_, rfl⟩⟩
    simp [posted, Act.isPost, hj.symm]
  | @goes _ _ sent _ _ =>
    cases sent with
    | none => exact ⟨rfl, rfl, fun _ _ => ⟨rfl, rfl⟩⟩
    | some request =>
      refine ⟨rfl, rfl, fun j hj => ⟨rfl, ?_⟩⟩
      simp [Announcing.sent, Act.sent, hj.symm]
  | ends => exact ⟨rfl, rfl, fun _ _ => ⟨rfl, rfl⟩⟩

end

end Stage

def OfPost (text body : String) (received : List Received) : Prop :=
  ∃ hops, Trail text (some body) hops ∧ hops.length ≤ Http.redirectLimit + 1 ∧
    List.Forall₂ Hop.Shows hops received

inductive Stage.Stands (text body : String) : Stage → ℕ → List Received → Prop
  | fresh : Stands text body .fresh 0 []
  | posting {t : Transfer} {hops : List Hop} {received : List Received}
      (hf : t.Follows text (some body) hops) (hs : List.Forall₂ Hop.Shows hops received) :
      Stands text body (.posting t) 1 received
  | done {outcome : Outcome Unit} {received : List Received} (h : OfPost text body received) :
      Stands text body (.done outcome) 1 received
  /-- It has been dropped before it was polled. -/
  | unposted : Stands text body .dropped 0 []
  | abandoned {received : List Received} (h : OfPost text body received) :
      Stands text body .dropped 1 received

namespace Stage

variable {text body : String} {stage : Stage} {n : ℕ} {received : List Received}

theorem Stands.dropped (h : Stands text body stage n received) :
    Stands text body .dropped n received := by
  cases h with
  | fresh => exact .unposted
  | posting hf hs => exact .abandoned ⟨_, hf.trail.1, hf.trail.2, hs⟩
  | done h => exact .abandoned h
  | unposted => exact .unposted
  | abandoned h => exact .abandoned h

theorem Stands.step {i : ℕ} {subscription : Subscription} {c c' : Client} {stage' : Stage}
    {acts : List Act}
    (h : Stands (endpoint c.base Path.subscribe) subscription.body stage n received)
    (hs : Step i subscription c stage acts c' stage') :
    Stands (endpoint c.base Path.subscribe) subscription.body stage' (n + posted i acts)
      (received ++ sent i acts) := by
  cases hs with
  | posts =>
    cases h with
    | fresh =>
      have hpost : posted i [.posts i] = 1 := by simp [posted, Act.isPost]
      rw [hpost]
      exact .posting (Transfer.follows_ofPost _ _) .nil
  | @goes t t' request agent ht =>
    cases h with
    | posting hf hshows =>
      obtain ⟨more, hf', hmore⟩ := hf.step? ht
      have hposted : posted i (request.toList.map (.sends i)) = 0 := by cases request <;> rfl
      have hsent : sent i (request.toList.map (.sends i)) = request.toList := by
        cases request <;> simp [sent, Act.sent]
      rw [hposted, hsent]
      exact .posting hf' (List.rel_append hshows hmore)
  | ends =>
    cases h with
    | posting hf hshows =>
      rw [sent, List.flatMap_nil, List.append_nil]
      exact .done ⟨_, hf.trail.1, hf.trail.2, hshows⟩

end Stage

end TopicClient.Announcing
