import TopicClient.Proofs.Client.OnePost
import TopicClient.Proofs.Http.Uri
import TopicClient.Proofs.Url.Joining

/-!
# Where the requests of a client go

A client is made from any text that is a URL, and puts the paths of its calls behind it. The first
request of a call goes to the server of the URL and to a path below that of the URL (`Reaches`)
exactly if the text carries the path (`Carries`): it is a URL of the web with nothing behind its
path, not even blanks, its path does not end in a slash once dots are resolved, and requests take
its authority and its length.
-/

namespace TopicClient.Client

open Http (Agent)

def endpoints : List String :=
  [Path.login, Path.logout, Path.keepAlive, Path.info, Path.publish, Path.subscribe, Path.fetch]

/-- A URL on the server of another, with a path behind that of the other. -/
structure IsBelow (given : Url) (path : String) (target : Url) : Prop where
  scheme : target.scheme = given.scheme
  host : target.authority.map (·.host) = given.authority.map (·.host)
  port : target.authority.map (·.port) = given.authority.map (·.port)
  path : target.path.render = Text.dropTrailingSlashes given.path.render ++ path
  query : target.query = none

/-- The first request of a call can be made, and goes below the URL of a text. -/
def Reaches (text : String) (c : Client) (op : Operation) : Prop :=
  ∀ path body, op.posts? c = some (path, body) →
    ∃ given target, Url.parse text = .ok given ∧
      Agent.target? (endpoint c.base path) = some target ∧ IsBelow given path target ∧
      (c.agent.server.isReachable = true → ∃ cookies rest, (op.run.run c).2.agent.received =
        c.agent.received ++
          Http.Request.received { method := .post, url := target, body } cookies :: rest)

/-- A text behind which a path is read as one below its own. -/
structure Carries (text path : String) (given : Url) : Prop where
  parse : Url.parse text = .ok given
  scheme : Http.isWebScheme given.scheme = true
  authority : given.withoutAccount.authority.any (fun a => Http.Uri.isAuthority a.render) = true
  length_le : (Text.dropTrailingSlashes given.withoutAccount.render ++ path).utf8ByteSize ≤
    Http.Uri.lengthLimit
  query : given.query = none
  fragment : given.fragment = none
  blanks : Url.lateBlanks text = []
  slashes : ∀ joined, Url.parse (Text.dropTrailingSlashes text ++ "/") = .ok joined →
    ¬ ['/', '/'] <:+ joined.path.render.toList

theorem exists_eq_of_mem_endpoints {path : String} (h : path ∈ endpoints) :
    ∃ w, path = String.ofList ('/' :: w) ∧ Url.IsPlain w ∧ ∃ c ∈ w, c ≠ '/' := by
  have hall : (endpoints.all fun path => path = String.ofList ('/' :: path.toList.tail) &&
      path.toList.tail.all (fun c => c = '/' || c.isLower) &&
      path.toList.tail.any fun c => c ≠ '/') = true := by decide
  have hpath := List.all_eq_true.1 hall path h
  simp only [Bool.and_eq_true, decide_eq_true_eq, List.all_eq_true, List.any_eq_true,
    Bool.or_eq_true] at hpath
  exact ⟨path.toList.tail, hpath.1.1, hpath.1.2, hpath.2⟩

theorem endpoint_eq {base path : String} (h : path ∈ endpoints) :
    endpoint base path = base ++ path := by
  obtain ⟨w, rfl, -⟩ := exists_eq_of_mem_endpoints h
  have hslash : (String.ofList ('/' :: w)).startsWith "/" = true := by simp
  rw [endpoint, if_pos hslash]

section Below

variable {text path : String} {given target : Url}

/-- A path is more than the slashes at the end of another. -/
theorem ne_append_of_mem_endpoints (h : path ∈ endpoints) (rendered : String) :
    rendered ≠ Text.dropTrailingSlashes rendered ++ path := by
  intro heq
  obtain ⟨slashes, hslashes, hall⟩ := Text.exists_slashes rendered
  obtain ⟨w, rfl, -, c, hc, hother⟩ := exists_eq_of_mem_endpoints h
  have happend := congrArg String.toList (hslashes.symm.trans heq)
  simp only [String.toList_append, String.toList_ofList] at happend
  rw [List.append_cancel_left happend] at hall
  exact hother (hall c (List.mem_cons_of_mem '/' hc))

theorem render_below {a : Url.Authority} {p : Url.Path} (ha : given.authority = some a)
    (hpass : Http.Uri.isAuthority a.render = true) (hquery : given.query = none)
    (hfragment : given.fragment = none)
    (hp : p.render = Text.dropTrailingSlashes given.path.render ++ path) :
    ({ given with path := p } : Url).render = Text.dropTrailingSlashes given.render ++ path := by
  have hne : a.render.toList ≠ [] := by
    intro hnil
    exact (Http.Uri.exists_of_isAuthority hpass).1 (String.toList_inj.1 hnil)
  obtain ⟨y, c, hend⟩ := List.eq_nil_or_concat a.render.toList |>.resolve_left hne
  -- The authority does not end in a slash, so only those of the path are dropped.
  have hc : decide (c = '/') = false := by
    refine decide_eq_false fun heq => Http.Uri.slash_not_mem_of_isAuthority hpass ?_
    rw [hend, heq]
    simp
  rw [← String.toList_inj, String.toList_append, Text.toList_dropTrailingSlashes]
  have hgiven : given.render.toList =
      (given.scheme.name.toList ++ ':' :: '/' :: '/' :: y) ++ c :: given.path.render.toList := by
    simp [Url.render, Url.target, ha, hquery, hfragment, hend]
  rw [hgiven, Text.rdropWhile_append_cons hc, ← Text.toList_dropTrailingSlashes]
  simp [Url.render, Url.target, ha, hquery, hfragment, hend, hp]

/-- Requests take a URL below another if they take its authority and its length. -/
theorem isUri_below_iff {u : Url} (hweb : Http.isWebScheme given.scheme = true)
    (hsome : given.authority.isSome = true) (hquery : given.query = none)
    (hfragment : given.fragment = none) (hu : u = { given with path := u.path })
    (hp : u.path.render = Text.dropTrailingSlashes given.path.render ++ path) :
    Http.isUri u.withoutAccount = true ↔
      given.withoutAccount.authority.any (fun a => Http.Uri.isAuthority a.render) = true ∧
        (Text.dropTrailingSlashes given.withoutAccount.render ++ path).utf8ByteSize ≤
          Http.Uri.lengthLimit := by
  obtain ⟨a, ha⟩ := Option.isSome_iff_exists.1 hsome
  have hplain : given.withoutAccount.authority = some { a with username := "", password := "" } := by
    rw [Url.withoutAccount, ha]
    rfl
  have hbelow : u.withoutAccount = { given.withoutAccount with path := u.path } := by
    rw [hu]
    rfl
  rw [hbelow, Http.isUri_iff (u := { given.withoutAccount with path := u.path }) hweb hplain, hplain,
    Option.any_some, and_comm]
  refine and_congr_right fun hpass => ?_
  rw [render_below (p := u.path) hplain hpass hquery hfragment hp]

theorem carries_of_isBelow (hpath : path ∈ endpoints) (hparse : Url.parse text = .ok given)
    (htarget : Agent.target? (Text.dropTrailingSlashes text ++ path) = some target)
    (hbelow : IsBelow given path target) : Carries text path given := by
  obtain ⟨u, hu, hweb, huri, rfl⟩ := Agent.target?_eq_some_iff.1 htarget
  obtain ⟨w, rfl, hw, -⟩ := exists_eq_of_mem_endpoints hpath
  have hscheme : u.scheme = given.scheme := hbelow.scheme
  rw [hscheme] at hweb
  obtain ⟨hs, hf⟩ := Http.isSpecial_of_isWebScheme hweb
  rcases Url.lost_or_exists_joint hs hf hparse with
    ⟨-, hlost⟩ | ⟨hquery, hfragment, authority, start, hjoint⟩
  · have hrender : u.path.render = _ := hbelow.path
    rw [hlost w hw u hu] at hrender
    exact absurd hrender (ne_append_of_mem_endpoints hpath _)
  · obtain ⟨a, rfl, hauthority, hquery', hfragment', hrender⟩ := hjoint.joins.of_parse hw hu
    have hstart : (Url.Path.rooted start).render.toList =
        given.path.render.toList.rdropWhile (· = '/') := by
      have htarget : u.path.render.toList = _ := congrArg String.toList hbelow.path
      rw [hrender, String.toList_append, String.toList_ofList,
        Text.toList_dropTrailingSlashes] at htarget
      exact List.append_cancel_right htarget
    have hblanks : Url.lateBlanks text = [] := by
      by_contra hne
      rcases hjoint.differs hne with hfails | hlonger
      · exact hfails a rfl
      · have hle := (List.rdropWhile_prefix (· = '/') given.path.render.toList).length_le
        rw [hstart] at hlonger
        omega
    obtain ⟨_, ha, hgiven⟩ := hjoint.authority_eq hblanks
    obtain rfl := Except.ok.inj ha
    have hsame : u = { given with path := u.path } := by
      obtain ⟨scheme, authority, _, query, fragment⟩ := u
      simp only [Url.mk.injEq, true_and]
      exact ⟨hscheme, hauthority.trans hgiven.symm, hquery'.trans hquery.symm,
        hfragment'.trans hfragment.symm⟩
    obtain ⟨hpass, hlength⟩ := (isUri_below_iff hweb (hgiven ▸ rfl) hquery hfragment hsame
      hbelow.path).1 huri
    refine ⟨hparse, hweb, hpass, hlength, hquery, hfragment, hblanks, fun joined hjoined => ?_⟩
    obtain ⟨-, -, -, -, -, hslash⟩ := hjoint.joins.of_parse (w := []) nofun hjoined
    rw [hslash, hstart]
    exact (Text.not_suffix_iff _).2 (List.rdropWhile_idempotent _ _)

theorem exists_isBelow_of_carries (hpath : path ∈ endpoints) (h : Carries text path given) :
    ∃ target, Agent.target? (Text.dropTrailingSlashes text ++ path) = some target ∧
      IsBelow given path target := by
  obtain ⟨w, rfl, hw, -⟩ := exists_eq_of_mem_endpoints hpath
  obtain ⟨hs, hf⟩ := Http.isSpecial_of_isWebScheme h.scheme
  rcases Url.lost_or_exists_joint hs hf h.parse with
    ⟨hrest, -⟩ | ⟨-, -, authority, start, hjoint⟩
  · rw [h.query, h.fragment] at hrest
    exact absurd hrest (by decide)
  · obtain ⟨a, rfl, hgiven⟩ := hjoint.authority_eq h.blanks
    obtain ⟨segments, hread, hsegments⟩ := hjoint.joins w hw
    obtain ⟨segments', hslash, hsegments'⟩ := hjoint.joins [] nofun
    have hstart : (Url.Path.rooted start).render.toList.rdropWhile (· = '/') =
        (Url.Path.rooted start).render.toList := by
      have hsuffix := h.slashes _ hslash
      rw [hsegments'] at hsuffix
      exact (Text.not_suffix_iff _).1 hsuffix
    have hrender : (Url.Path.rooted segments).render =
        Text.dropTrailingSlashes given.path.render ++ String.ofList ('/' :: w) := by
      rw [← String.toList_inj, String.toList_append, Text.toList_dropTrailingSlashes,
        String.toList_ofList, hjoint.render_eq h.blanks, hstart]
      exact hsegments
    have hbelow : Url.parse (Text.dropTrailingSlashes text ++ String.ofList ('/' :: w)) =
        .ok { given with path := .rooted segments } := by
      rw [hread, hgiven, h.query, h.fragment]
      rfl
    have huri := (isUri_below_iff (u := { given with path := .rooted segments }) h.scheme
      (hgiven ▸ rfl) h.query h.fragment rfl hrender).2 ⟨h.authority, h.length_le⟩
    refine ⟨_, Agent.target?_eq_some_iff.2 ⟨_, hbelow, h.scheme, huri, rfl⟩, ?_⟩
    refine ⟨rfl, ?_, ?_, hrender, h.query⟩
    · rw [Url.withoutAccount, Option.map_map]
      rfl
    · rw [Url.withoutAccount, Option.map_map]
      rfl

end Below

/-- The requests of a client reach an endpoint below its URL exactly if the text that it was made
from carries the path. -/
theorem reaches_iff_carries {text : String} {agent : Agent} {c₀ c : Client} {op : Operation}
    {path : String} {body : Option String} (hc : connect (.ofUrl text) agent = .ok c₀)
    (hbase : c.base = c₀.base) (hposts : op.posts? c = some (path, body))
    (hpath : path ∈ endpoints) : Reaches text c op ↔ ∃ given, Carries text path given := by
  rw [base_of_connect hc] at hbase
  constructor
  · intro hreaches
    obtain ⟨given, target, hparse, htarget, hbelow, -⟩ := hreaches path body hposts
    rw [endpoint_eq hpath, hbase] at htarget
    exact ⟨given, carries_of_isBelow hpath hparse htarget hbelow⟩
  · rintro ⟨given, hcarries⟩ path' body' hposts'
    rw [hposts] at hposts'
    cases hposts'
    obtain ⟨target, htarget, hbelow⟩ := exists_isBelow_of_carries hpath hcarries
    rw [← hbase, ← endpoint_eq hpath] at htarget
    refine ⟨given, target, hcarries.parse, htarget, hbelow, fun hreachable => ?_⟩
    obtain ⟨cookies, rest, -, hreceived⟩ := exists_received_of_target? hposts htarget hreachable
    exact ⟨cookies, rest, hreceived⟩

theorem parse_eq_ok {text : String} {u : Url} (h : (Url.parse text).toOption = some u) :
    Url.parse text = .ok u := by
  cases hparse : Url.parse text with
  | error cause =>
    rw [hparse] at h
    cases h
  | ok u' =>
    rw [hparse] at h
    rw [Option.some.inj h]

theorem carries_base : Carries "http://susi.test/v1/../base//" Path.logout {
    scheme := .http
    authority := some { host := .domain "susi.test" }
    path := .rooted ["base", "", ""] } := by
  refine ⟨parse_eq_ok (by decide +kernel), rfl, by decide +kernel, by decide +kernel, rfl, rfl,
    by decide +kernel, fun joined hjoined => ?_⟩
  have hslash : Url.parse (Text.dropTrailingSlashes "http://susi.test/v1/../base//" ++ "/") = .ok {
      scheme := .http
      authority := some { host := .domain "susi.test" }
      path := .rooted ["base", ""] } := parse_eq_ok (by decide +kernel)
  obtain rfl := Except.ok.inj (hjoined.symm.trans hslash)
  decide

/-- Dots in the path of a text do not matter, nor do slashes at its end. -/
theorem reaches_below_base : ∃ c,
    connect (.ofUrl "http://susi.test/v1/../base//") { server := {} } = .ok c ∧
      Reaches "http://susi.test/v1/../base//" c .logout := by
  have hbase : Text.dropTrailingSlashes "http://susi.test/v1/../base//" =
      "http://susi.test/v1/../base" := by decide +kernel
  have hc := connect_ofUrl { server := {} } hbase (by decide +kernel)
  exact ⟨_, hc, (reaches_iff_carries hc rfl rfl (by decide)).2 ⟨_, carries_base⟩⟩

/-- The text is a URL but for the blank, and no request can be made from it. -/
theorem not_reaches_trailing_blank : ∃ c,
    connect (.ofUrl "http://susi.test ") { server := {} } = .ok c ∧
      ¬ Reaches "http://susi.test " c .logout := by
  have hbase : Text.dropTrailingSlashes "http://susi.test " = "http://susi.test " := by
    decide +kernel
  refine ⟨_, connect_ofUrl { server := {} } hbase (by decide +kernel), fun hreaches => ?_⟩
  obtain ⟨given, target, -, htarget, -⟩ := hreaches Path.logout none rfl
  have hnone : Agent.target? (endpoint "http://susi.test " Path.logout) = none := by
    decide +kernel
  rw [hnone] at htarget
  cases htarget

end TopicClient.Client
