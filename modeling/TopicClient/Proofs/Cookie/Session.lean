import TopicClient.Http.Message
import TopicClient.Proofs.Url.Origin

/-!
# The cookie of a session

A server names a session in a cookie for all of its paths. While it hands out no other cookies, the
jar of a client keeps one at most, that of the session named last (`Keeps`), and picks it for every
URL of the server (`Keeps.select`).
-/

namespace TopicClient.Cookie

def sessionName : String := "susisession"

def sessionHeader (id : String) : String := sessionName ++ "=" ++ id ++ "; Path=/"

/-- A text that can name a session: any letters and digits, and whatever else neither ends a value
nor is trimmed away. -/
structure IsSessionId (id : String) : Prop where
  ne_empty : id ≠ ""
  isPlain : ∀ c ∈ id.toList, c ≠ ';' ∧ Text.isBlank c = false

def session (id : String) : Cookie := { name := sessionName, value := id, path := "/" }

/-! ## Reading the header -/

section Header

theorem isBlank_eq_false_of_isAlphanum {c : Char} (h : c.isAlphanum = true) :
    Text.isBlank c = false := by
  have hbounds := Url.toNat_of_isAlphanum h
  simp only [Text.isBlank, Bool.or_eq_false_iff, Bool.and_eq_false_iff, decide_eq_false_iff_not]
  omega

theorem isSessionId_of_isAlphanum {id : String} (hne : id ≠ "")
    (h : ∀ c ∈ id.toList, c.isAlphanum = true) : IsSessionId id := by
  refine ⟨hne, fun c hc => ⟨?_, isBlank_eq_false_of_isAlphanum (h c hc)⟩⟩
  rintro rfl
  exact absurd (h ';' hc) (by decide)

theorem sessionHeader_injective {id id' : String} (h : sessionHeader id = sessionHeader id') :
    id = id' := by
  have hlists := congrArg String.toList h
  simp only [sessionHeader, String.toList_append] at hlists
  exact String.toList_inj.1 (List.append_cancel_left (List.append_cancel_right hlists))

theorem trim_of_forall {cs : List Char} (h : ∀ c ∈ cs, Text.isBlank c = false) :
    Text.trim cs = cs := by
  have hdrop : ∀ {l : List Char}, (∀ c ∈ l, Text.isBlank c = false) →
      l.dropWhile Text.isBlank = l := by
    intro l hl
    cases l with
    | nil => rfl
    | cons c l => exact List.dropWhile_cons_of_neg (by simp [hl c List.mem_cons_self])
  rw [Text.trim, Text.trimStart, hdrop h, Text.trimEnd,
    hdrop fun c hc => h c (List.mem_reverse.1 hc), List.reverse_reverse]

theorem splitOn_of_forall {separates : Char → Bool} {cs : List Char}
    (h : ∀ c ∈ cs, separates c = false) : Text.splitOn separates cs = [cs] := by
  obtain ⟨ps, p, hnil, hsplit⟩ := Text.exists_splitOn_append h []
  obtain ⟨rfl, hp⟩ := List.append_eq_singleton_iff.1 hnil.symm |>.resolve_right (by simp)
  cases hp
  exact hsplit

theorem read?_sessionHeader {id : String} (h : IsSessionId id) :
    read? (sessionHeader id) = some (sessionName, id, { path := some "/" }) := by
  have htext : (sessionHeader id).toList =
      (sessionName.toList ++ '=' :: id.toList) ++ ';' :: [' ', 'P', 'a', 't', 'h', '=', '/'] := by
    simp [sessionHeader, sessionName]
  have hpair : ∀ c ∈ sessionName.toList ++ '=' :: id.toList, decide (c = ';') = false := by
    refine List.forall_mem_append.2 ⟨by simp [sessionName], List.forall_mem_cons.2 ⟨rfl, fun c hc => ?_⟩⟩
    exact decide_eq_false (h.isPlain c hc).1
  have hsplits : Url.Splits (fun c => decide (c ≠ '=')) sessionName.toList ('=' :: id.toList) :=
    ⟨by simp [sessionName], fun c hc => by obtain rfl := Option.some.inj hc; rfl⟩
  have hread : readPair (sessionName.toList ++ '=' :: id.toList) =
      (sessionName.toList, some id.toList) := by
    rw [readPair, hsplits.span_eq]
    simp only
    rw [trim_of_forall fun c hc => (h.isPlain c hc).2]
    rfl
  have hattributes : [[' ', 'P', 'a', 't', 'h', '=', '/']].foldl Attributes.read {} =
      { path := some "/" } := by
    rfl
  rw [read?, htext, Text.splitOn_append (by rfl), splitOn_of_forall hpair,
    splitOn_of_forall (by simp), List.singleton_append]
  simp only [hread, hattributes, String.ofList_toList]
  rfl

end Header

/-! ## The jar -/

/-- What a jar keeps after a host has handed out headers that name sessions. -/
inductive Jar.Keeps (host : Url.Host) : List String → Jar → Prop
  | nothing : Keeps host [] {}
  | session {headers : List String} {id : String} (h : IsSessionId id) :
      Keeps host (headers ++ [sessionHeader id]) ⟨[⟨host, session id⟩]⟩

namespace Jar.Keeps

variable {host : Url.Host} {headers : List String} {jar : Jar} {url : Url} {a : Url.Authority}

/-- A session that is named takes the place of the one before. -/
theorem receive (h : Keeps host headers jar) (now : Int) (ha : url.authority = some a)
    (hhost : a.host = host) {id : String} (hid : IsSessionId id) :
    Keeps host (headers ++ [sessionHeader id]) (jar.receive now url (sessionHeader id)) := by
  have hreceive : jar.receive now url (sessionHeader id) =
      jar.insert now ⟨host, Cookie.session id⟩ := by
    rw [Jar.receive, read?_sessionHeader hid, ha]
    simp [allowsDomain, hhost, Attributes.expiry, Cookie.session]
  have hinsert : jar.insert now ⟨host, Cookie.session id⟩ = ⟨[⟨host, Cookie.session id⟩]⟩ := by
    cases h with
    | nothing => rfl
    | session h => simp [Jar.insert, Cookie.session, isExpired]
  rw [hreceive, hinsert]
  exact .session hid

/-- The session named last is picked for every URL of its server. -/
theorem select (h : Keeps host headers jar) (now : Int) (ha : url.authority = some a)
    (hhost : a.host = host) (hrooted : url.IsRooted) :
    headers = [] ∧ jar.select now url = [] ∨
      ∃ id, headers.getLast? = some (sessionHeader id) ∧
        jar.select now url = [Cookie.session id] := by
  cases h with
  | nothing => exact .inl ⟨rfl, rfl⟩
  | @session headers id h =>
    obtain ⟨cs, hcs⟩ := hrooted.exists_render
    have hcovers : covers "/" (urlPath url) = true := by
      simp [covers, urlPath, hcs]
    refine .inr ⟨id, by simp, ?_⟩
    simp [Jar.select, ha, hhost, Cookie.session, hcovers, isExpired]

end Jar.Keeps

end TopicClient.Cookie

namespace TopicClient.Http.Response

open Cookie

def cookieHeaders (r : Response) : List String :=
  (r.headers.filter fun h => Text.lower h.1 = "set-cookie").map (·.2)

/-- A response hands out no cookies but such that name sessions. -/
def NamesSessions (r : Response) : Prop :=
  ∀ header ∈ r.cookieHeaders, ∃ id, IsSessionId id ∧ header = sessionHeader id

theorem keeps_receiveAll {r : Response} (hr : r.NamesSessions) {host : Url.Host}
    {headers : List String} {jar : Jar} (h : Jar.Keeps host headers jar) (now : Int) {url : Url}
    {a : Url.Authority} (ha : url.authority = some a) (hhost : a.host = host) :
    Jar.Keeps host (headers ++ r.cookieHeaders) (jar.receiveAll now url r.headers) := by
  unfold NamesSessions cookieHeaders at hr
  unfold cookieHeaders Jar.receiveAll
  generalize r.headers = handed at hr ⊢
  induction handed generalizing headers jar with
  | nil => simpa using h
  | cons header rest ih =>
    rw [List.foldl_cons]
    by_cases hname : Text.lower header.1 = "set-cookie"
    · simp only [hname, decide_true, List.filter_cons_of_pos, List.map_cons, if_true] at hr ⊢
      obtain ⟨⟨id, hid, hheader⟩, hrest⟩ := List.forall_mem_cons.1 hr
      have hnext := ih (h.receive now ha hhost hid) hrest
      rw [hheader, List.append_cons]
      exact hnext
    · simp only [hname, decide_false, List.filter_cons_of_neg, Bool.false_eq_true, not_false_eq_true,
        if_false] at hr ⊢
      exact ih h hr

end TopicClient.Http.Response
