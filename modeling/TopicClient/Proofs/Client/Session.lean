import TopicClient.Proofs.Client.OnePost
import TopicClient.Proofs.Message.SessionText

/-!
# The session and its description

The description of the session can be had as the server writes it, or be read. These are two calls,
and only the first logs how it ended. `session_decodes_info` says that they do not differ otherwise:
they send the same and leave the same cookies, the second fails where the first does, and else it
reads what the first returns (`Decodes`).
-/

namespace TopicClient.Client

open Json Session

structure Decodes (description : Outcome String) (outcome : Outcome Session) : Prop where
  failure : ∀ e, description = .error e → outcome = .error e
  reading : ∀ body, description = .ok body →
    ∀ s, outcome = .ok s ↔ Document SessionText body.toList s
  refusal : ∀ body, description = .ok body → (¬ ∃ s, Document SessionText body.toList s) →
    ∃ e, outcome = .error (.serialization (.reading e))

def describedBy (accepted : Accepted) : Outcome Session :=
  (Session.parse accepted.body).mapError fun e => .serialization (.reading e)

section Calls

variable {body : String} {s : Session}

theorem describedBy_eq_ok_iff :
    describedBy ⟨body⟩ = .ok s ↔ Document SessionText body.toList s := by
  rw [← Session.parse_eq_ok_iff, describedBy]
  cases Session.parse body with
  | ok s' => exact ⟨fun h => by cases h; rfl, fun h => by cases h; rfl⟩
  | error e => exact ⟨nofun, nofun⟩

theorem exists_describedBy_eq_error (h : ¬ ∃ s, Document SessionText body.toList s) :
    ∃ e, describedBy ⟨body⟩ = .error (.serialization (.reading e)) := by
  rw [describedBy]
  cases hparse : Session.parse body with
  | ok s => exact absurd ⟨s, Session.parse_eq_ok_iff.1 hparse⟩ h
  | error e => exact ⟨e, rfl⟩

theorem posts_info : Posts id Path.info none Client.info := posts_posted Path.info (·.body)

/-- The description is the body of the response, if its status is 200. -/
theorem value_info (c : Client) :
    (info.run c).1 = (outcomeOf (c.exchange Path.info none).1).map (·.body) := by
  have hrun : (info.run c).1 = ((postBody Path.info none).run c).1.map (·.body) := rfl
  rw [hrun, run_postBody]

theorem value_session (c : Client) :
    (session.run c).1 = (outcomeOf (c.exchange Path.info none).1).bind describedBy := by
  rw [session, run_bind_of_run (run_postBody c Path.info none)]
  cases outcomeOf (c.exchange Path.info none).1 <;> rfl

/-- To fetch the session is to fetch its description and to read it. -/
theorem session_decodes_info (c : Client) :
    (session.run c).2.agent = (info.run c).2.agent ∧ Decodes (info.run c).1 (session.run c).1 := by
  refine ⟨(posts_session.agent_eq c).trans (posts_info.agent_eq c).symm, ?_⟩
  rw [value_info, value_session]
  cases outcomeOf (c.exchange Path.info none).1 with
  | error e =>
    change Decodes (.error e) (.error e)
    refine ⟨?_, nofun, nofun⟩
    rintro e ⟨⟩
    rfl
  | ok accepted =>
    change Decodes (.ok accepted.body) (describedBy accepted)
    refine ⟨?_, ?_, ?_⟩
    · rintro e ⟨⟩
    · rintro body ⟨⟩ s
      exact describedBy_eq_ok_iff
    · rintro body ⟨⟩ h
      exact exists_describedBy_eq_error h

end Calls

end TopicClient.Client
