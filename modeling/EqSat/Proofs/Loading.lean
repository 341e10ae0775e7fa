import EqSat.Proofs.Includes
import EqSat.Proofs.Printing.Line

/-!
# Loading files that include others

Loading goes through the files in the order in which they are listed, and keeps those that it has
come to.  It fails at the first file that it comes to again, be it on the way back to a file that is
still being read or on a second way to one that has been read already.  So it fails on circles, and
as well where two lines include the same file.  Where it does not fail, it gives the rules of every
include in place of the line.

    outcome_loadFileWithin          what loading does, by induction on the depth of includes
    failsOnlyOnCircles_iff          where it fails on circles only
-/

namespace EqSat

namespace FileSet

open Rule

variable {fs : FileSet} {start p q : Path} {text group : String} {lines : List String}
  {ls included : List Location} {rs : List Rule} {depth : Nat}

/-! ## What is loaded -/

/-- A chain of includes from `start` to a file, and the files included along it, each of them
once. -/
inductive Chain (fs : FileSet) (start : Path) : List Location → Path → Prop
  | start : Chain fs start [] start
  | step {ls : List Location} {p q : Path} {text : String} : Chain fs start ls p →
      fs.read p = .ok text → q ∈ includes p.parent text → q.resolve ∉ ls →
      Chain fs start (q.resolve :: ls) q

/-- Every file that is included exists, and all other lines are well formed. -/
structure Complete (fs : FileSet) (start : Path) : Prop where
  top : ∃ text, fs.read start = .ok text
  found : ∀ ls p text, fs.Chain start ls p → fs.read p = .ok text →
    ∀ q ∈ includes p.parent text, ∃ text', fs.read q = .ok text'
  formed : ∀ ls p text, fs.Chain start ls p → fs.read p = .ok text →
    ∀ line ∈ linesOf text, ListLine.ofString line = .other → ∃ r, ofLine line = .ok r

/-- The rules of lines, with those of every include in place of its line. -/
inductive InPlace (fs : FileSet) : Path → List String → String → List Rule → Prop
  | nil {base : Path} {group : String} : InPlace fs base [] group []
  | group {base : Path} {line name group : String} {lines : List String} {rs : List Rule} :
      ListLine.ofString line = .group name → InPlace fs base lines name rs →
      InPlace fs base (line :: lines) group rs
  | load {base : Path} {line path group text : String} {lines : List String} {new rs : List Rule} :
      ListLine.ofString line = .load path →
      fs.read (base.join (Path.ofString path)) = .ok text →
      InPlace fs (base.join (Path.ofString path)).parent (linesOf text) "" new →
      InPlace fs base lines group rs →
      InPlace fs base (line :: lines) group ((nameFrom 1 new).map (inGroup group) ++ rs)
  | rule {base : Path} {line group : String} {lines : List String} {new : Option Rule}
      {rs : List Rule} : ListLine.ofString line = .other → ofLine line = .ok new →
      InPlace fs base lines group rs →
      InPlace fs base (line :: lines) group ((new.map (inGroup group)).toList ++ rs)

/-- The rules of a file. -/
def Expands (fs : FileSet) (p : Path) (rs : List Rule) : Prop :=
  ∃ text new, fs.read p = .ok text ∧ fs.InPlace p.parent (linesOf text) "" new ∧
    rs = nameFrom 1 new

/-! ## How it is loaded -/

/-- What comes of files to load when others have been included: they are listed behind those, or one
of them would be there twice. -/
inductive Outcome (fs : FileSet) (ls included : List Location) (given : List Rule → Prop) :
    Except LoadError Loaded → Prop
  | loaded {us : List Location} {rs : List Rule} : fs.Unfolds ls us →
      (us.reverse ++ included).Nodup → (∀ l ∈ us, (fs.file? l).isSome = true) → given rs →
      Outcome fs ls included given (.ok (rs, us.reverse ++ included))
  | circular {path : String} : (∀ us, fs.Unfolds ls us → ¬ (us.reverse ++ included).Nodup) →
      Outcome fs ls included given (.error (.rule (.circularInclude path)))

/-- The files included so far when one is to be loaded.  They are files, so that the depth left is
enough for the others. -/
structure Ready (fs : FileSet) (start : Path) (depth : Nat) (p : Path) (included : List Location) :
    Prop where
  chain : ∃ ls, fs.Chain start ls p ∧ ls ⊆ included
  nodup : included.Nodup
  files : ∀ l ∈ included, (fs.file? l).isSome = true
  depth : fs.size + 2 ≤ depth + included.length

theorem targets_of_read (hfs : fs.Consistent) (h : fs.read p = .ok text) :
    fs.targets p.resolve = targetsOf p.parent.resolve (linesOf text) := by
  rw [targets, (read_eq_ok h).2, resolve_parent_of_read hfs h]

/-- Different files are no more than there are. -/
theorem length_le_size (hnodup : included.Nodup)
    (hfiles : ∀ l ∈ included, (fs.file? l).isSome = true) : included.length ≤ fs.size := by
  rw [size, ← List.length_map (f := Prod.fst)]
  refine hnodup.length_le_of_subset fun l hl => ?_
  by_contra hnot
  have hsome := hfiles l hl
  rw [file?_of_notMem hnot] at hsome
  cases hsome

theorem Ready.exists_depth (h : fs.Ready start depth p included) : ∃ d, depth = d + 1 := by
  have hle := length_le_size h.nodup h.files
  have hdepth := h.depth
  exact ⟨depth - 1, by omega⟩

theorem isSome_of_read (h : fs.read p = .ok text) : (fs.file? p.resolve).isSome = true := by
  rw [← Option.isSome_map, ← text?, (read_eq_ok h).2, Option.isSome_some]

/-- A file that has not been included yet is ready to be loaded one include deeper. -/
theorem Ready.below {text' : String} (h : fs.Ready start (depth + 1) p included)
    (hread : fs.read p = .ok text) (hq : q ∈ includes p.parent text)
    (hread' : fs.read q = .ok text') (hnew : q.resolve ∉ included) :
    fs.Ready start depth q (q.resolve :: included) := by
  obtain ⟨ls, hchain, hsub⟩ := h.chain
  have hdepth := h.depth
  refine ⟨⟨q.resolve :: ls, .step hchain hread hq fun h => hnew (hsub h), ?_⟩,
    List.nodup_cons.2 ⟨hnew, h.nodup⟩, List.forall_mem_cons.2 ⟨isSome_of_read hread', h.files⟩, ?_⟩
  · exact List.cons_subset_cons _ hsub
  · rw [List.length_cons]
    omega

/-- After more files have been included, the rest of a file is as ready as it was. -/
theorem Ready.later {later : List Location} (h : fs.Ready start depth p included)
    (hsub : included ⊆ later) (hnodup : later.Nodup)
    (hfiles : ∀ l ∈ later, (fs.file? l).isSome = true) : fs.Ready start depth p later := by
  obtain ⟨ls, hchain, hls⟩ := h.chain
  have hlength := h.nodup.length_le_of_subset hsub
  have hdepth := h.depth
  exact ⟨⟨ls, hchain, List.Subset.trans hls hsub⟩, hnodup, hfiles, by omega⟩

theorem Chain.exists_text (hc : fs.Complete start) (h : fs.Chain start ls p) :
    ∃ text, fs.read p = .ok text := by
  cases h with
  | start => exact hc.top
  | step hchain hread hq _ => exact hc.found _ _ _ hchain hread _ hq

theorem mem_includes {base : Path} {line path : String} (hline : line ∈ linesOf text)
    (hkind : ListLine.ofString line = .load path) :
    base.join (Path.ofString path) ∈ includes base text :=
  List.mem_filterMap.2 ⟨line, hline, by rw [hkind]⟩

theorem targetsOf_cons (base : Location) (line : String) (lines : List String) :
    targetsOf base (line :: lines) = (match ListLine.ofString line with
      | .load path => [base.follow (Path.ofString path)]
      | _ => []) ++ targetsOf base lines := by
  rw [targetsOf, List.filterMap_cons]
  cases ListLine.ofString line <;> rfl

/-- The include that is met again is there twice. -/
theorem not_nodup_of_mem {l : Location} {us : List Location} (h : fs.Unfolds (l :: ls) us)
    (hl : l ∈ included) : ¬ (us.reverse ++ included).Nodup := by
  intro hnodup
  have hmem : l ∈ us.reverse := List.mem_reverse.2 (h.mem_of_mem List.mem_cons_self)
  exact (List.nodup_append.1 hnodup).2.2 l hmem l hl rfl

theorem loadInclude_of_read (load : Path → List Location → Except LoadError Loaded)
    (h : fs.read q = .ok text) (included : List Location) :
    loadInclude fs load q included =
      if q.resolve ∈ included then .error (.rule (.circularInclude q.text))
      else load q (q.resolve :: included) := by
  obtain ⟨husable, hcontains⟩ := contains_of_read h
  rw [loadInclude, husable, hcontains]
  rfl

theorem reverse_cons_append (l : Location) (us vs included : List Location) :
    (l :: us ++ vs).reverse ++ included = vs.reverse ++ (us.reverse ++ l :: included) := by
  simp

namespace Outcome

variable {given given' : List Rule → Prop} {res : Except LoadError Loaded} {l : Location}
  {us : List Location}

theorem imp (h : fs.Outcome ls included given res) (himp : ∀ rs, given rs → given' rs) :
    fs.Outcome ls included given' res := by
  cases h with
  | loaded hus hnodup hfiles hrs => exact .loaded hus hnodup hfiles (himp _ hrs)
  | circular hnot => exact .circular hnot

/-- Rules put before those that are loaded. -/
theorem prepend (h : fs.Outcome ls included given res) (new : List Rule)
    (hgiven : ∀ rs, given rs → given' (new ++ rs)) :
    fs.Outcome ls included given' (do
      let (rest, included) ← res
      .ok (new ++ rest, included)) := by
  cases h with
  | loaded hus hnodup hfiles hrs => exact .loaded hus hnodup hfiles (hgiven _ hrs)
  | circular hnot => exact .circular hnot

/-- Files that are loaded after the first one and those listed with it. -/
theorem behind (hus : fs.Unfolds (fs.targets l) us)
    (hfiles : ∀ m ∈ l :: us, (fs.file? m).isSome = true)
    (h : fs.Outcome ls (us.reverse ++ l :: included) given res) :
    fs.Outcome (l :: ls) included given res := by
  cases h with
  | @loaded vs rs hvs hnodup hfiles' hrs =>
    rw [← reverse_cons_append] at hnodup ⊢
    exact .loaded (.cons hus hvs) hnodup (List.forall_mem_append.2 ⟨hfiles, hfiles'⟩) hrs
  | circular hnot =>
    refine .circular fun us' hus' => ?_
    cases hus' with
    | cons hus' hvs =>
      rw [hus'.unique hus, reverse_cons_append]
      exact hnot _ hvs

/-- A repetition below the first file. -/
theorem circular_of_first {path : String}
    (h : ∀ us, fs.Unfolds (fs.targets l) us → ¬ (us.reverse ++ l :: included).Nodup) :
    fs.Outcome (l :: ls) included given (.error (.rule (.circularInclude path))) := by
  refine .circular fun us hus hnodup => ?_
  cases hus with
  | cons hus hvs =>
    rw [reverse_cons_append] at hnodup
    exact h _ hus (List.nodup_append.1 hnodup).2.1

end Outcome

/-- The lines of a file, by induction on the lines, for a way to load that goes one less deep. -/
theorem outcome_loadLines (hc : fs.Complete start)
    {load : Path → List Location → Except LoadError Loaded}
    (hload : ∀ q included, fs.Ready start depth q included →
      fs.Outcome (fs.targets q.resolve) included (fs.Expands q) (load q included))
    (hready : fs.Ready start (depth + 1) p included) (hread : fs.read p = .ok text)
    (hlines : ∀ line ∈ lines, line ∈ linesOf text) :
    fs.Outcome (targetsOf p.parent.resolve lines) included (fs.InPlace p.parent lines group)
      (loadLines fs p.parent load lines group included) := by
  induction lines generalizing group included with
  | nil =>
    have hnodup : (([] : List Location).reverse ++ included).Nodup := hready.nodup
    exact .loaded .nil hnodup (List.forall_mem_nil _) .nil
  | cons line lines ih =>
    obtain ⟨hline, hrest⟩ := List.forall_mem_cons.1 hlines
    obtain ⟨ls, hchain, -⟩ := hready.chain
    rw [loadLines, targetsOf_cons]
    cases hkind : ListLine.ofString line with
    | group name =>
      exact (ih hready hrest).imp fun rs hrs => .group hkind hrs
    | other =>
      obtain ⟨new, hnew⟩ := hc.formed ls p text hchain hread line hline hkind
      dsimp only
      rw [hnew]
      exact (ih hready hrest).prepend _ fun rs hrs => .rule hkind hnew hrs
    | load path =>
      have hq : p.parent.join (Path.ofString path) ∈ includes p.parent text :=
        mem_includes hline hkind
      generalize hqdef : p.parent.join (Path.ofString path) = q at hq
      obtain ⟨text', hread'⟩ := hc.found ls p text hchain hread q hq
      have hresolve : p.parent.resolve.follow (Path.ofString path) = q.resolve := by
        rw [← hqdef, Path.resolve_join_eq]
      dsimp only
      rw [hqdef, hresolve, List.singleton_append, loadInclude_of_read load hread']
      by_cases hmem : q.resolve ∈ included
      · rw [if_pos hmem]
        exact .circular fun us hus => not_nodup_of_mem hus hmem
      · rw [if_neg hmem]
        have hbelow := hready.below hread hq hread' hmem
        have hloaded := hload q _ hbelow
        generalize load q (q.resolve :: included) = res at hloaded ⊢
        cases hloaded with
        | circular hnot => exact .circular_of_first hnot
        | @loaded us _ hus hnodup hfiles hexp =>
          obtain ⟨text'', new, hread'', hnew, rfl⟩ := hexp
          have hlater : fs.Ready start (depth + 1) p (us.reverse ++ q.resolve :: included) := by
            refine hready.later ?_ hnodup ?_
            · exact fun l hl => List.mem_append_right _ (List.mem_cons_of_mem _ hl)
            · exact List.forall_mem_append.2
                ⟨fun l hl => hfiles l (List.mem_reverse.1 hl), hbelow.files⟩
          refine .behind hus (List.forall_mem_cons.2 ⟨isSome_of_read hread', hfiles⟩) ?_
          refine (ih hlater hrest).prepend _ fun rs hrs => ?_
          rw [← hqdef] at hread'' hnew
          exact .load hkind hread'' hnew hrs

/-- **Loading a file**, by induction on the depth of includes. -/
theorem outcome_loadFileWithin (hfs : fs.Consistent) (hc : fs.Complete start)
    (h : fs.Ready start depth p included) :
    fs.Outcome (fs.targets p.resolve) included (fs.Expands p)
      (loadFileWithin fs depth p included) := by
  induction depth generalizing p included with
  | zero =>
    obtain ⟨d, hd⟩ := h.exists_depth
    cases hd
  | succ depth ih =>
    obtain ⟨ls, hchain, -⟩ := h.chain
    obtain ⟨text, hread⟩ := hchain.exists_text hc
    have hlines : fs.Outcome (targetsOf p.parent.resolve (linesOf text)) included
        (fs.InPlace p.parent (linesOf text) "")
        (loadLines fs p.parent (loadFileWithin fs depth) (linesOf text) "" included) :=
      outcome_loadLines hc (fun q included hq => ih hq) h hread fun line hline => hline
    rw [loadFileWithin, hread, targets_of_read hfs hread]
    change fs.Outcome _ _ _ (loadTextWith fs (loadFileWithin fs depth) p.parent text included)
    rw [loadTextWith]
    generalize loadLines fs p.parent _ (linesOf text) "" included = res at hlines ⊢
    cases hlines with
    | circular hnot => exact .circular hnot
    | loaded hus hnodup hfiles hnew =>
      exact .loaded hus hnodup hfiles ⟨text, _, hread, hnew, rfl⟩

/-! ## Circles and repetitions -/

/-- Loading fails on a circle of includes exactly where there is one, and gives the rules of every
include in place where there is none. -/
structure FailsOnlyOnCircles (fs : FileSet) (path : String) : Prop where
  error_iff : (∃ q, loadFile fs path = .error (.rule (.circularInclude q))) ↔
    fs.Circular (Path.ofString path).resolve
  inPlace : ¬ fs.Circular (Path.ofString path).resolve →
    ∃ rs, loadFile fs path = .ok rs ∧ fs.Expands (Path.ofString path) rs

/-- Loading fails exactly where there is a circle or a file that is included twice. -/
theorem loadFile_cases {path : String} (hfs : fs.Consistent)
    (hc : fs.Complete (Path.ofString path)) :
    (∃ rs, loadFile fs path = .ok rs ∧ fs.Expands (Path.ofString path) rs ∧
      ¬ fs.Circular (Path.ofString path).resolve ∧ fs.EachOnce (Path.ofString path).resolve) ∨
    ∃ q, loadFile fs path = .error (.rule (.circularInclude q)) ∧
      (fs.Circular (Path.ofString path).resolve ∨ ¬ fs.EachOnce (Path.ofString path).resolve) := by
  have hready : fs.Ready (Path.ofString path) (includeDepth fs) (Path.ofString path) [] :=
    ⟨⟨[], .start, List.nil_subset []⟩, List.nodup_nil, List.forall_mem_nil _, Nat.le_refl _⟩
  have hloaded := outcome_loadFileWithin hfs hc hready
  rw [loadFile]
  generalize loadFileWithin fs (includeDepth fs) (Path.ofString path) [] = res at hloaded ⊢
  cases hloaded with
  | @loaded us rs hus hnodup _ hexp =>
    rw [List.append_nil, List.nodup_reverse] at hnodup
    exact .inl ⟨rs, rfl, hexp, hus.not_circular, hus.nodup_iff.1 hnodup⟩
  | @circular q hnot =>
    refine .inr ⟨q, rfl, ?_⟩
    by_cases hcircular : fs.Circular (Path.ofString path).resolve
    · exact .inl hcircular
    · refine .inr fun honce => ?_
      obtain ⟨us, hus⟩ := exists_unfolds hcircular
      refine hnot us hus ?_
      rw [List.append_nil, List.nodup_reverse]
      exact hus.nodup_iff.2 honce

/-- **Circles of includes.**  Where all files that are included exist and all rules are well formed,
loading fails for a circular include exactly where there is a circle or two lines include the same
file; otherwise it gives the rules of every include in place.  So it fails on circles only exactly
where there is a circle, or no two lines include the same file. -/
theorem Complete.failsOnlyOnCircles_iff {path : String} (hc : fs.Complete (Path.ofString path))
    (hfs : fs.Consistent) :
    ((∃ q, loadFile fs path = .error (.rule (.circularInclude q))) ↔
      fs.Circular (Path.ofString path).resolve ∨ ¬ fs.EachOnce (Path.ofString path).resolve) ∧
    (¬ fs.Circular (Path.ofString path).resolve → fs.EachOnce (Path.ofString path).resolve →
      ∃ rs, loadFile fs path = .ok rs ∧ fs.Expands (Path.ofString path) rs) ∧
    (fs.FailsOnlyOnCircles path ↔
      fs.Circular (Path.ofString path).resolve ∨ fs.EachOnce (Path.ofString path).resolve) := by
  obtain ⟨rs, hok, hexp, hnot, honce⟩ | ⟨q, herror, hcase⟩ := loadFile_cases hfs hc
  · have hnever : ¬ ∃ q, loadFile fs path = .error (.rule (.circularInclude q)) := by
      rintro ⟨q, hq⟩
      rw [hok] at hq
      cases hq
    refine ⟨iff_of_false hnever (by simp [hnot, honce]), fun _ _ => ⟨rs, hok, hexp⟩,
      iff_of_true ⟨iff_of_false hnever hnot, fun _ => ⟨rs, hok, hexp⟩⟩ (.inr honce)⟩
  · have hnever : ¬ ∃ rs, loadFile fs path = .ok rs ∧ fs.Expands (Path.ofString path) rs := by
      rintro ⟨rs, hrs, -⟩
      rw [herror] at hrs
      cases hrs
    refine ⟨iff_of_true ⟨q, herror⟩ hcase, fun hnot honce => ?_, fun h => ?_, fun h => ?_⟩
    · exact absurd honce (hcase.resolve_left hnot)
    · exact .inl (h.error_iff.1 ⟨q, herror⟩)
    · have hcircular : fs.Circular (Path.ofString path).resolve :=
        h.elim id fun honce => hcase.resolve_right fun hnot => hnot honce
      exact ⟨iff_of_true ⟨q, herror⟩ hcircular, fun hnot => absurd hcircular hnot⟩

/-! ## Sets of files -/

theorem consistent_of_files (h : ∀ l ∈ fs.files.map Prod.fst, fs.isDirectory l = false) :
    fs.Consistent := by
  intro l text hl
  refine h l ?_
  by_contra hnot
  rw [file?_of_notMem hnot] at hl
  cases hl

/-- The file at the path can be read, includes files of the list only, and is well formed. -/
def stays (fs : FileSet) (paths : List Path) (p : Path) : Bool :=
  match fs.read p with
  | .ok text => (includes p.parent text).all (· ∈ paths) &&
      (linesOf text).all fun line => match ListLine.ofString line with
        | .other => (ofLine line).isOk
        | _ => true
  | .error _ => false

theorem complete_of_stays (paths : List Path) (hstart : start ∈ paths)
    (h : ∀ p ∈ paths, fs.stays paths p = true) : fs.Complete start := by
  have hread : ∀ p ∈ paths, ∃ text, fs.read p = .ok text := by
    intro p hp
    have hp' := h p hp
    rw [stays] at hp'
    split at hp'
    · next text htext => exact ⟨text, htext⟩
    · cases hp'
  have hall : ∀ p ∈ paths, ∀ text, fs.read p = .ok text →
      (∀ q ∈ includes p.parent text, q ∈ paths) ∧
      ∀ line ∈ linesOf text, ListLine.ofString line = .other → ∃ r, ofLine line = .ok r := by
    intro p hp text htext
    have hp' := h p hp
    rw [stays, htext] at hp'
    simp only [Bool.and_eq_true, List.all_eq_true, decide_eq_true_eq] at hp'
    refine ⟨hp'.1, fun line hline hother => ?_⟩
    have hline' := hp'.2 line hline
    rw [hother] at hline'
    cases hr : ofLine line with
    | ok r => exact ⟨r, rfl⟩
    | error e =>
      rw [hr] at hline'
      cases hline'
  have hchain : ∀ ls p, fs.Chain start ls p → p ∈ paths := by
    intro ls p hp
    induction hp with
    | start => exact hstart
    | step _ htext hq _ ih => exact (hall _ ih _ htext).1 _ hq
  exact ⟨hread start hstart, fun ls p text hp htext q hq => hread q ((hall p (hchain ls p hp) text
    htext).1 q hq), fun ls p text hp htext => (hall p (hchain ls p hp) text htext).2⟩

/-- The files listed, for chains of at most so many includes and lines. -/
def listed (fs : FileSet) : Nat → List Location → Option (List Location)
  | _, [] => some []
  | 0, _ :: _ => none
  | n + 1, l :: ls => do
    let us ← fs.listed n (fs.targets l)
    let vs ← fs.listed n ls
    some (l :: us ++ vs)

theorem unfolds_of_listed {n : Nat} {us : List Location} (h : fs.listed n ls = some us) :
    fs.Unfolds ls us := by
  induction n generalizing ls us with
  | zero =>
    cases ls with
    | nil =>
      cases h
      exact .nil
    | cons l ls => cases h
  | succ n ih =>
    cases ls with
    | nil =>
      cases h
      exact .nil
    | cons l ls =>
      obtain ⟨us, hus, h⟩ := Option.bind_eq_some_iff.1 h
      obtain ⟨vs, hvs, h⟩ := Option.bind_eq_some_iff.1 h
      cases h
      exact .cons (ih hus) (ih hvs)

/-- A rule file includes one of another directory, which includes one beside it. -/
def nested : FileSet := .ofList [
  ("main", "[g]\n:include lib/mul\n@plus: ?x => (+ :x)"),
  ("lib/mul", ":include add\n(* ?x 1) => :x"),
  ("lib/add", "@sum: (+ ?x 0) => :x")]

/-- The rules of the includes come in place. -/
theorem failsOnlyOnCircles_nested :
    nested.Consistent ∧ nested.Complete (Path.ofString "main") ∧
      nested.FailsOnlyOnCircles "main" ∧
      ∃ rs, loadFile nested "main" = .ok rs ∧
        nested.Expands (Path.ofString "main") rs ∧
        rs.map (fun r => (r.line, r.tags)) = [("@sum: (+ ?x 0) => :x", ["g"]),
          ("@rule-2: (* ?x 1) => :x", ["g"]), ("@plus: ?x => (+ :x)", ["g"])] := by
  have hus : nested.Unfolds (nested.targets (Path.ofString "main").resolve)
      [⟨"", 0, ["lib", "mul"]⟩, ⟨"", 0, ["lib", "add"]⟩] :=
    unfolds_of_listed (n := 3) (by decide +kernel)
  have honce := hus.nodup_iff.1 (by decide +kernel)
  have hconsistent : nested.Consistent := consistent_of_files (by decide +kernel)
  have hcomplete : nested.Complete (Path.ofString "main") :=
    complete_of_stays (["main", "lib/mul", "lib/add"].map Path.ofString)
      (by decide +kernel) (by decide +kernel)
  obtain ⟨-, hplace, hiff⟩ := hcomplete.failsOnlyOnCircles_iff hconsistent
  obtain ⟨rs, hrs, hexp⟩ := hplace hus.not_circular honce
  refine ⟨hconsistent, hcomplete, hiff.2 (.inr honce), rs, hrs, hexp, ?_⟩
  have hlines : (loadFile nested "main").toOption.map
      (·.map fun r => (r.line, r.tags)) = some [("@sum: (+ ?x 0) => :x", ["g"]),
        ("@rule-2: (* ?x 1) => :x", ["g"]), ("@plus: ?x => (+ :x)", ["g"])] := by
    decide +kernel
  rw [hrs] at hlines
  exact Option.some.inj hlines

/-- Two files include the same third one. -/
def diamond : FileSet := .ofList [
  ("main", ":include left\n:include right"),
  ("left", ":include base"),
  ("right", ":include base"),
  ("base", "@plus: ?x => (+ :x)")]

/-- There is no circle, and loading fails all the same. -/
theorem not_failsOnlyOnCircles :
    ¬ ∀ (fs : FileSet) (path : String), fs.Consistent → fs.Complete (Path.ofString path) →
      fs.FailsOnlyOnCircles path := by
  intro hall
  have hus : diamond.Unfolds (diamond.targets (Path.ofString "main").resolve)
      (["left", "base", "right", "base"].map (⟨"", 0, [·]⟩)) :=
    unfolds_of_listed (n := 3) (by decide +kernel)
  have hcomplete : diamond.Complete (Path.ofString "main") :=
    complete_of_stays (["main", "left", "right", "base"].map Path.ofString)
      (by decide +kernel) (by decide +kernel)
  have hfails := hall diamond "main" (consistent_of_files (by decide +kernel)) hcomplete
  obtain ⟨rs, hrs, -⟩ := hfails.inPlace hus.not_circular
  have herror : (loadFile diamond "main").toOption.isSome = false := by decide +kernel
  rw [hrs] at herror
  cases herror

end FileSet

end EqSat
