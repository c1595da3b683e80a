import TopicClient.Proofs.Client.Independence
import TopicClient.Proofs.Client.Reaching
import TopicClient.Proofs.Client.Sending
import TopicClient.Proofs.Http.Continuity

/-!
# The session of a client over its whole life

All requests of a client go to the server of its URL, with the cookies of one jar. `Course` are its
runs of any length. As long as the server names sessions in its cookies and leads to no other server,
every request of a run carries the session that was named last before it: `continuous_of_course`.
-/

namespace TopicClient.Client

open Http (Agent Serves)

/-- The runs of a client. Between two steps time passes, the server may go away or come back, and
other parts of the program may register and log what they like. -/
inductive Course (c : Client) : Client → Prop
  | refl : Course c c
  | act {c' : Client} (h : Course c c') (a : Act) : Course c (a.after c')
  | waits {c' : Client} (h : Course c c') (now : ℤ) (isReachable : Bool) :
      Course c { c' with
        agent := { c'.agent with now, server := { c'.agent.server with isReachable } } }
  | elsewhere {c' : Client} (h : Course c c') (delivery : Delivery) : Course c { c' with delivery }

theorem exists_endpoint_eq (base path : String) :
    ∃ w, endpoint base path = base ++ String.ofList ('/' :: w) := by
  rw [endpoint]
  split_ifs with hslash
  · obtain ⟨w, hw⟩ : ['/'] <+: path.toList := by simpa using hslash
    refine ⟨w, ?_⟩
    rw [← String.toList_inj, String.toList_append, ← hw]
    simp
  · refine ⟨path.toList, ?_⟩
    rw [← String.toList_inj]
    simp

/-- Whatever path is put behind the text of a URL, a request for it goes to the server of the URL. -/
theorem isAt_of_target? {text path : String} {given target : Url}
    (hgiven : Url.parse text = .ok given)
    (h : Agent.target? (endpoint (Text.dropTrailingSlashes text) path) = some target) :
    Agent.IsAt given target := by
  obtain ⟨url, hurl, hweb, _, rfl⟩ := Agent.target?_eq_some_iff.1 h
  obtain ⟨w, hw⟩ := exists_endpoint_eq (Text.dropTrailingSlashes text) path
  rw [hw] at hurl
  obtain ⟨hspecial, hfile⟩ := Http.isSpecial_of_isWebScheme hweb
  obtain ⟨hscheme, hauthority⟩ := Url.authority_of_joined hspecial hfile hgiven hurl
  have hat : Agent.IsAt given url := by
    refine ⟨?_, Url.isRooted_of_parse hspecial hfile hurl, hweb,
      Url.isSome_authority_of_parse hspecial hfile hurl⟩
    rw [Url.origin, Url.origin, hscheme, hauthority]
  exact hat.withoutAccount

section Steps

variable {c : Client} {given : Url} {text : String} {replies : List Http.Reply} {n : ℕ}

theorem Act.agent_after (a : Act) (c : Client) :
    (a.after c).agent = c.agent ∨
      ∃ path body, (a.after c).agent = (c.exchange path body).2 := by
  cases a with
  | register key handler => exact .inl rfl
  | handle key authLevel handler =>
    rw [after, run_register]
    cases c.delivery.subscribe key authLevel handler with
    | ok d => exact .inl rfl
    | error d => exact .inl rfl
  | call op =>
    cases hposts : op.posts? c with
    | none => exact .inl (run_of_posts?_eq_none hposts).1
    | some posted => exact .inr ⟨posted.1, posted.2, (run_of_posts?_eq_some hposts).1⟩
  | send path payload onSuccess onFailure =>
    have hsend : ((Client.send path payload onSuccess onFailure).run c).2.agent =
        ((post path payload).run c).2.agent := by
      rw [Client.send, run_sendTo]
      refine agent_give (fun callback h => ?_) (fun callback h => ?_) _ _
      all_goals
        split_ifs at h
        · cases h
          exact fun _ _ _ => rfl
        · cases h
    rw [after, hsend, post]
    cases encode payload with
    | ok body => exact .inr ⟨path, body, by rw [run_postBody]; rfl⟩
    | error e => exact .inl rfl
  | dispatch batch => exact .inl rfl

theorem Act.length_received_le_after (a : Act) (c : Client) :
    c.agent.received.length ≤ (a.after c).agent.received.length := by
  obtain h | ⟨path, body, h⟩ := a.agent_after c
  · rw [h]
  · rw [h]
    exact Agent.length_received_le_post _ _ _

theorem continues_after (h : c.agent.Continues given replies)
    (hbase : c.base = Text.dropTrailingSlashes text) (hgiven : Url.parse text = .ok given)
    (hserves : Serves given replies n) (a : Act) (hn : (a.after c).agent.received.length ≤ n) :
    (a.after c).agent.Continues given replies := by
  obtain hsame | ⟨path, body, hexchange⟩ := a.agent_after c
  · rw [hsame]
    exact h
  · rw [hexchange, exchange] at hn ⊢
    refine h.post hserves (fun url htarget => ?_) body hn
    rw [hbase] at htarget
    exact isAt_of_target? hgiven htarget

end Steps

section Runs

variable {c₀ c : Client} {given : Url} {text : String} {replies : List Http.Reply}

theorem Course.base_eq (h : Course c₀ c) : c.base = c₀.base := by
  induction h with
  | refl => rfl
  | act _ a ih => rw [a.base_after, ih]
  | waits _ now isReachable ih => exact ih
  | elsewhere _ delivery ih => exact ih

/-- A run keeps the session, as long as the server serves the requests that it makes. -/
theorem Course.continues (h : Course c₀ c) (hc₀ : c₀.agent.Continues given replies)
    (hbase : c₀.base = Text.dropTrailingSlashes text) (hgiven : Url.parse text = .ok given)
    (hserves : Serves given replies c.agent.received.length) :
    c.agent.Continues given replies := by
  generalize hn : c.agent.received.length = n at hserves
  replace hn := hn.le
  induction h with
  | refl => exact hc₀
  | act h a ih =>
    have hcontinues := ih ((a.length_received_le_after _).trans hn)
    exact continues_after hcontinues (h.base_eq.trans hbase) hgiven hserves a hn
  | waits _ now isReachable ih =>
    obtain ⟨⟨hserved, hcarries⟩, hkeeps⟩ := ih hn
    exact ⟨⟨hserved, hcarries⟩, hkeeps⟩
  | elsewhere _ delivery ih => exact ih hn

end Runs

/-- In every run of a client, whatever calls it mixes and however they end, each request carries the
session named last in the replies before it, and nothing else; before a session is named it carries
no cookie. -/
theorem continuous_of_course {config : Config} {server : Http.Server} {now : ℤ} {c₀ c : Client}
    {given : Url} (hstart : connect config { server, now } = .ok c₀)
    (hgiven : Url.parse config.url = .ok given) (hrun : Course c₀ c)
    (hserves : Serves given server.replies c.agent.received.length) :
    c.agent.Continuous server.replies := by
  have hc₀ : c₀.base = Text.dropTrailingSlashes config.url ∧ c₀.agent = { server, now } := by
    unfold connect baseUrl at hstart
    rw [hgiven] at hstart
    cases hstart
    exact ⟨rfl, rfl⟩
  obtain ⟨hbase, hagent⟩ := hc₀
  have hfirst : c₀.agent.Continues given server.replies := by
    rw [hagent]
    exact ⟨⟨rfl, nofun⟩, .nothing⟩
  exact (hrun.continues hfirst hbase hgiven hserves).toContinuous

def renames : Http.Server where
  replies :=
    [.response { status := 401, headers := [("Set-Cookie", "susisession=a1; Path=/")] },
      .response
        { status := 302
          headers := [("Set-Cookie", "susisession=b2; Path=/"), ("Location", "/next")] },
      .closed]

def renamesUrl : Url where
  scheme := .http
  authority := some { host := .domain "susi.test" }
  path := .rooted [""]

theorem serves_renames (n : ℕ) : Serves renamesUrl renames.replies n := by
  intro response hmem
  have hnames : ∀ id : String, id ≠ "" ∧ id.toList.all Char.isAlphanum = true →
      Cookie.IsSessionId id :=
    fun id hid => Cookie.isSessionId_of_isAlphanum hid.1 (List.all_eq_true.1 hid.2)
  have hcases := List.mem_of_mem_take hmem
  simp only [renames, List.mem_cons, List.not_mem_nil, or_false, reduceCtorEq,
    Http.Reply.response.injEq] at hcases
  rcases hcases with rfl | rfl
  · refine ⟨fun header hheader => ?_, fun next hnext => ?_⟩
    · exact ⟨"a1", hnames "a1" (by decide +kernel), List.mem_singleton.1 hheader⟩
    · cases hnext
  · refine ⟨fun header hheader => ?_, fun next hnext => ?_⟩
    · exact ⟨"b2", hnames "b2" (by decide +kernel), List.mem_singleton.1 hheader⟩
    · have hplace : Http.Response.redirection?
          { status := 302
            headers := [("Set-Cookie", "susisession=b2; Path=/"), ("Location", "/next")] }
          renamesUrl = some { renamesUrl with path := .rooted ["next"] } := by decide +kernel
      rw [hplace] at hnext
      obtain rfl := Option.some.inj hnext
      rfl

def renamed : Client where
  config := .ofUrl "http://susi.test"
  base := "http://susi.test"
  agent := { server := renames }

/-- The second call follows a redirection, and each of its requests has the session named last. -/
theorem continuous_of_renames : ∃ c,
    connect (.ofUrl "http://susi.test") { server := renames } = .ok renamed ∧
      Course renamed c ∧ c.agent.received.map (·.cookieTexts) =
        [none, some ["susisession=a1"], some ["susisession=b2"]] := by
  have hurl : (Config.ofUrl "http://susi.test").url = "http://susi.test" := by decide +kernel
  have hstart : connect (.ofUrl "http://susi.test") { server := renames } = .ok renamed :=
    connect_ofUrl { server := renames } hurl (by decide +kernel)
  have hgiven : Url.parse (Config.ofUrl "http://susi.test").url = .ok renamesUrl :=
    parse_eq_ok (by decide +kernel)
  have hrun : Course renamed ((Act.call .info).after ((Act.call .logout).after renamed)) :=
    (Course.refl.act (.call .logout)).act (.call .info)
  have hcontinuous := continuous_of_course hstart hgiven hrun (serves_renames _)
  refine ⟨_, hstart, hrun, ?_⟩
  have hlength : ((Act.call .info).after
      ((Act.call .logout).after renamed)).agent.received.length = 3 := by decide +kernel
  obtain ⟨r₀, r₁, r₂, hreceived⟩ := List.length_eq_three.1 hlength
  have hcarries := hcontinuous.carries
  rw [hreceived] at hcarries ⊢
  have hfirst : r₀.cookieTexts = none := (hcarries 0 r₀ rfl).nothing rfl
  have hsecond : r₁.cookieTexts = some ["susisession=a1"] := (hcarries 1 r₁ rfl).latest "a1" rfl
  have hthird : r₂.cookieTexts = some ["susisession=b2"] := (hcarries 2 r₂ rfl).latest "b2" rfl
  rw [List.map_cons, List.map_cons, List.map_cons, hfirst, hsecond, hthird]
  rfl

end TopicClient.Client
