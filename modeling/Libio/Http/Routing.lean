import Libio.Http.Replies

/-! # Which handler a request goes to

Two ways to cut a path at its slashes: at every one of them (`segments`), and as the `getline` loop
of `split` does it, which gives no segment for what is behind a last slash (`split_eq`). Patterns
are matched segment by segment, and so a slash at the end of a path or of a pattern decides where
the two ways choose different handlers (`route_eq_iff`). -/

namespace Libio

/-! ## Cutting at the delimiter -/

/-- The segments of a path, cut at every slash. -/
def segments (s : Str) : List Str := s.splitOn 47

/-- Drop the last segment when it is empty. -/
def dropOpen (segs : List Str) : List Str :=
  if segs.getLast? = some [] then segs.dropLast else segs

/-- A path that is empty or ends with a slash: its last segment is empty. -/
def EndsOpen (s : Str) : Prop := (segments s).getLast? = some []

instance : DecidablePred EndsOpen := fun s =>
  inferInstanceAs (Decidable ((segments s).getLast? = some []))

/-- There is one segment at least. -/
theorem segments_ne_nil (s : Str) : segments s ≠ [] := List.splitOnP_ne_nil _ s

/-- `k` slashes give `k + 1` segments. -/
theorem length_segments (s : Str) : (segments s).length = s.count 47 + 1 := by
  induction s with
  | nil => rfl
  | cons c s ih =>
      unfold segments List.splitOn at ih ⊢
      rw [List.splitOnP_cons_eq_if_modifyHead, List.count_cons]
      split
      · rw [List.length_cons, ih]
      · rw [List.length_modifyHead, ih]

/-- Only the last segment can be dropped. -/
theorem dropOpen_cons (tok : Str) {segs : List Str} (h : segs ≠ []) :
    dropOpen (tok :: segs) = tok :: dropOpen segs := by
  unfold dropOpen
  rw [List.getLast?_cons_of_ne_nil h, List.dropLast_cons_of_ne_nil h]
  split <;> rfl

/-- The `getline` loop, with the bytes `tok` read since the last delimiter. -/
theorem splitLoop_eq (d : UInt8) (s tok : Str) :
    splitLoop d s tok (tok ≠ []) = dropOpen ((s.splitOn d).modifyHead (tok ++ ·)) := by
  induction s generalizing tok with
  | nil => by_cases h : tok = [] <;> simp [splitLoop, dropOpen, h]
  | cons c s ih =>
      have hcons : (c :: s).splitOn d =
          if c == d then [] :: s.splitOn d else (s.splitOn d).modifyHead (List.cons c) :=
        List.splitOnP_cons_eq_if_modifyHead c s
      have hne : s.splitOn d ≠ [] := List.splitOnP_ne_nil _ s
      rw [splitLoop, hcons]
      by_cases hc : c = d
      · -- the bytes read so far are a segment, and the next one starts empty
        subst hc
        have hid : (s.splitOn c).modifyHead (([] : Str) ++ ·) = s.splitOn c := by
          obtain ⟨a, l, hal⟩ := List.exists_cons_of_ne_nil hne
          simp [hal]
        have hrest := ih []
        rw [hid] at hrest
        simp only [if_true, beq_self_eq_true, List.modifyHead_cons, List.append_nil,
          dropOpen_cons tok hne, ← hrest]
        rfl
      · -- one more byte of the segment that is being read
        have hrest := ih (tok ++ [c])
        have hbeq : (c == d) = false := by simpa using hc
        rw [if_neg hc, hbeq, if_neg Bool.false_ne_true, List.modifyHead_modifyHead]
        have hcomp : ((fun x : Str => tok ++ x) ∘ List.cons c) = fun x => tok ++ [c] ++ x := by
          funext x
          simp
        rw [hcomp, ← hrest]
        simp

/-- **What `split` computes**: the segments, without the last one where that is empty. -/
theorem split_eq (s : Str) : split s 47 = dropOpen (segments s) := by
  have hid : (s.splitOn 47).modifyHead (([] : Str) ++ ·) = s.splitOn 47 := by
    obtain ⟨a, l, hal⟩ := List.exists_cons_of_ne_nil (segments_ne_nil s)
    rw [show s.splitOn 47 = a :: l from hal]
    rfl
  have h := splitLoop_eq 47 s []
  rw [hid] at h
  exact h

/-! ## Matching -/

/-- Segments agree: equally many, and each equal or `*` in the pattern. -/
def segmentsAgree (v1 v2 : List Str) : Bool :=
  v1.length = v2.length ∧ ∀ p ∈ v1.zip v2, p.1 = p.2 ∨ p.1 = str "*"

/-- Whether a path matches a pattern, both cut at every slash. -/
def agrees (pattern uri : Str) : Bool := segmentsAgree (segments pattern) (segments uri)

/-- **Matching** compares the segments, but for an empty last one. -/
theorem matchesPattern_eq (pattern uri : Str) : matchesPattern pattern uri =
    segmentsAgree (dropOpen (segments pattern)) (dropOpen (segments uri)) := by
  rw [← split_eq, ← split_eq]
  rfl

/-- Empty segments at both ends make no difference. -/
theorem segmentsAgree_append_nil (v1 v2 : List Str) :
    segmentsAgree (v1 ++ [[]]) (v2 ++ [[]]) = segmentsAgree v1 v2 := by
  rw [Bool.eq_iff_iff]
  simp only [segmentsAgree, decide_eq_true_eq, List.length_append, Nat.add_right_cancel_iff]
  refine and_congr_right fun hlen => ?_
  rw [List.zip_append hlen]
  simp [or_imp, forall_and]

/-- Only as many segments can agree. -/
theorem length_eq_of_segmentsAgree {v1 v2 : List Str} (h : segmentsAgree v1 v2 = true) :
    v1.length = v2.length := by
  unfold segmentsAgree at h
  exact (of_decide_eq_true h).1

/-- An empty last segment. -/
theorem EndsOpen.eq_append {s : Str} (h : EndsOpen s) :
    segments s = dropOpen (segments s) ++ [[]] := by
  unfold EndsOpen at h
  rw [dropOpen, if_pos h]
  exact (List.dropLast_append_getLast? _ h).symm

/-- Nothing is dropped where the last segment is not empty. -/
theorem dropOpen_of_not_endsOpen {s : Str} (h : ¬EndsOpen s) :
    dropOpen (segments s) = segments s := if_neg h

/-- The two ways of cutting agree where both the path and the pattern have an empty last segment, or
neither has. -/
theorem matchesPattern_eq_agrees {pattern uri : Str} (h : EndsOpen pattern ↔ EndsOpen uri) :
    matchesPattern pattern uri = agrees pattern uri := by
  rw [matchesPattern_eq, agrees]
  by_cases hp : EndsOpen pattern
  · have hu := h.mp hp
    rw [← segmentsAgree_append_nil, ← hp.eq_append, ← hu.eq_append]
  · rw [dropOpen_of_not_endsOpen hp, dropOpen_of_not_endsOpen (h.not.mp hp)]

/-- Where only one of them has, the path does not match in both ways. -/
theorem not_matchesPattern_and_agrees {pattern uri : Str} (h : ¬(EndsOpen pattern ↔ EndsOpen uri)) :
    ¬(matchesPattern pattern uri = true ∧ agrees pattern uri = true) := by
  rintro ⟨hm, ha⟩
  rw [matchesPattern_eq] at hm
  -- dropping one of two empty segments changes one of two lengths that are equal both times
  have hm := length_eq_of_segmentsAgree hm
  have ha := length_eq_of_segmentsAgree ha
  have hopen : ∀ {s : Str}, EndsOpen s →
      (dropOpen (segments s)).length + 1 = (segments s).length := fun hs => by
    have := congrArg List.length hs.eq_append
    simpa using this.symm
  by_cases hp : EndsOpen pattern
  · have hu : ¬EndsOpen uri := fun hu => h (iff_of_true hp hu)
    rw [dropOpen_of_not_endsOpen hu] at hm
    have := hopen hp
    omega
  · have hu : EndsOpen uri := by
      by_contra hu
      exact h (iff_of_false hp hu)
    rw [dropOpen_of_not_endsOpen hp] at hm
    have := hopen hu
    omega

/-! ## Routes -/

/-- Two searches find the same exactly when what either of them finds first satisfies both. -/
theorem find?_eq_find?_iff {α : Type*} (l : List α) (p q : α → Bool) :
    l.find? p = l.find? q ↔
      ∀ a, l.find? (fun x => p x || q x) = some a → p a = true ∧ q a = true := by
  induction l with
  | nil => simp
  | cons x l ih =>
      cases hp : p x <;> cases hq : q x
      · simpa [List.find?_cons, hp, hq] using ih
      · refine iff_of_false (fun h => ?_) (by simp [hp, hq])
        simp only [List.find?_cons, hp, hq] at h
        exact absurd (List.find?_some h) (by simp [hp])
      · refine iff_of_false (fun h => ?_) (by simp [hp, hq])
        simp only [List.find?_cons, hp, hq] at h
        exact absurd (List.find?_some h.symm) (by simp [hq])
      · simp [hp, hq]

/-- The route of a path when paths and patterns are cut at every slash: the handler of the path
itself, else the first pattern in the order of the map that the path matches, else the general
handler, else none. -/
def HttpServer.exactRoute (server : HttpServer) (uri : Str) : Route :=
  if uri ∈ server.requestHandlers then .handler uri
  else
    match server.requestHandlers.find? fun key => agrees key uri with
    | some key => .pattern key
    | none => if server.generalHandler then .general else .notFound

/-- Nothing at the end of the path changes its route: it is registered itself, or the first pattern
that it matches in either way has an empty last segment exactly when the path has. -/
def HttpServer.SlashSafe (server : HttpServer) (uri : Str) : Prop :=
  uri ∈ server.requestHandlers ∨
    ∀ key, server.requestHandlers.find?
      (fun key => matchesPattern key uri || agrees key uri) = some key →
      (EndsOpen key ↔ EndsOpen uri)

/-- The route for the pattern that was found, if any. -/
def Route.ofFound (general : Bool) : Option Str → Route
  | some key => .pattern key
  | none => if general then .general else .notFound

/-- Different results of the search are different routes. -/
theorem Route.ofFound_injective (general : Bool) : Function.Injective (Route.ofFound general) := by
  intro a b h
  cases a <;> cases b <;> cases general <;> simp_all [Route.ofFound]

/-- **Routing cuts at every slash** exactly where no slash at an end interferes. -/
theorem route_eq_iff (server : HttpServer) (uri : Str) :
    server.route uri = server.exactRoute uri ↔ server.SlashSafe uri := by
  unfold HttpServer.route HttpServer.exactRoute HttpServer.SlashSafe
  by_cases hmem : uri ∈ server.requestHandlers
  · simp [hmem]
  · rw [if_neg hmem, if_neg hmem, or_iff_right hmem]
    refine ((Route.ofFound_injective server.generalHandler).eq_iff
      (a := server.requestHandlers.find? fun key => matchesPattern key uri)
      (b := server.requestHandlers.find? fun key => agrees key uri)).trans ?_
    rw [find?_eq_find?_iff]
    refine forall_congr' fun key => imp_congr_right fun hfound => ?_
    have hor := List.find?_some hfound
    simp only [Bool.or_eq_true] at hor
    constructor
    · intro hboth
      by_contra hcon
      exact not_matchesPattern_and_agrees hcon hboth
    · intro hiff
      rw [matchesPattern_eq_agrees hiff] at hor ⊢
      simpa using hor

/-! ## Requests -/

namespace Session

/-- What handling a request by a given route appends. -/
def handledBy (route : Route) (env : Env) (n : ℕ) (req : Request) : List Event :=
  .dispatched route req ::
    match route with
    | .notFound => [.appended (notFoundResponse (env.clock n) req).wire]
    | _ => eventsOf (env.answer n route req).now

/-- **A request runs** the handler of the route of its path, or gets the 404 reply, exactly where
its path is safe. -/
theorem handleRequest_route_iff (s : Session) (server : HttpServer) (env : Env) (req : Request) :
    (s.handleRequest server env req).trace =
        s.trace ++ handledBy (server.exactRoute req.uri) env s.trace.length req ↔
      server.SlashSafe req.uri := by
  rw [← route_eq_iff, (s.handleRequest_spec server env req).1, List.append_cancel_left_eq]
  constructor
  · intro h
    exact (Event.dispatched.inj (List.cons.inj h).1).1
  · rintro h
    rw [← h]
    rfl

/-- Handlers that answer nothing, at any time. -/
def silentEnv : Env := ⟨fun _ _ _ => {}, fun _ => newYear⟩

/-- Where `/a` alone is registered, its handler takes the path `/a/` too. -/
theorem handleRequest_route_slash :
    ((sole 5 []).handleRequest ⟨[str "/a"], false⟩ silentEnv { uri := str "/a/" }).trace =
        handledBy (.pattern (str "/a")) silentEnv 0 { uri := str "/a/" } ∧
      HttpServer.exactRoute ⟨[str "/a"], false⟩ (str "/a/") = .notFound ∧
      ¬HttpServer.SlashSafe ⟨[str "/a"], false⟩ (str "/a/") := by
  have hroute : HttpServer.route ⟨[str "/a"], false⟩ (str "/a/") = .pattern (str "/a") := by
    decide +kernel
  have hexact : HttpServer.exactRoute ⟨[str "/a"], false⟩ (str "/a/") = .notFound := by
    decide +kernel
  refine ⟨?_, hexact, fun hsafe => ?_⟩
  · rw [((sole 5 []).handleRequest_spec _ silentEnv _).1, handled, hroute]
    rfl
  · have := (route_eq_iff _ _).mpr hsafe
    rw [hroute, hexact] at this
    cases this

end Session

end Libio
