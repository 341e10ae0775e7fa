import EqSat.Proofs.Printing.Loaded
import EqSat.Proofs.Reads
import EqSat.Proofs.Tallies

/-!
# Names of loaded rules

A rule without a name is named for its place.  Places are counted in every list by itself, which is
the text or one of the files, and the rules of an include take up places in the list that includes
them, although they have got their names in their own list.  So two rules without names get the same
name exactly where they are at the same place of two lists.

    names_perm                       the names given, and those for the places of every list
    nodup_names_iff                  when all names are different
    Loads.arranges                   what is loaded has the names of its arrangement
    LoadedFrom.distinctNames_iff     loaded rules, and the reports of their runs
-/

namespace EqSat

/-- The name of a rule that has none, for its place. -/
def Rule.placeName (n : Nat) : String := "rule-" ++ toString n

theorem Rule.placeName_injective : Function.Injective Rule.placeName := by
  intro m n h
  have hlist := congrArg String.toList h
  rw [placeName, placeName, String.toList_append, String.toList_append] at hlist
  have hdigits : Nat.toDigits 10 m = Nat.toDigits 10 n := by
    have htail := List.append_cancel_left hlist
    rwa [show (toString m).toList = Nat.toDigits 10 m from Nat.toList_repr,
      show (toString n).toList = Nat.toDigits 10 n from Nat.toList_repr] at htail
  have hvalue := congrArg Constant.natOfDigits? hdigits
  rw [Constant.natOfDigits?_toDigits, Constant.natOfDigits?_toDigits] at hvalue
  exact Option.some.inj hvalue

/-- What a list holds, in order: rules with the names given to them, which are empty where there are
none, and the lists of the files that it includes. -/
inductive Arrangement where
  | nil
  | rule (given : String) (rest : Arrangement)
  | load (inner rest : Arrangement)
deriving DecidableEq

namespace Arrangement

open Rule

/-- The number of rules. -/
def size : Arrangement → Nat
  | nil => 0
  | rule _ rest => rest.size + 1
  | load inner rest => inner.size + rest.size

/-- The names of the rules, the first of them being in place `n`. -/
def names : Nat → Arrangement → List String
  | _, nil => []
  | n, rule name rest => (if name.isEmpty then placeName n else name) :: rest.names (n + 1)
  | n, load inner rest => inner.names 1 ++ rest.names (n + inner.size)

/-- The names given to rules, in all lists. -/
def given : Arrangement → List String
  | nil => []
  | rule name rest => if name.isEmpty then rest.given else name :: rest.given
  | load inner rest => inner.given ++ rest.given

/-- The places of the rules without names that are written in the list itself. -/
def unnamed : Nat → Arrangement → List Nat
  | _, nil => []
  | n, rule name rest => if name.isEmpty then n :: rest.unnamed (n + 1) else rest.unnamed (n + 1)
  | n, load inner rest => rest.unnamed (n + inner.size)

/-- The lists of all files included, also by others. -/
def loads : Arrangement → List Arrangement
  | nil => []
  | rule _ rest => rest.loads
  | load inner rest => inner :: inner.loads ++ rest.loads

/-- No two of the lists, the whole one among them, have rules without names at the same place. -/
def Apart (a : Arrangement) : Prop :=
  (a :: a.loads).Pairwise fun b c => (b.unnamed 1).Disjoint (c.unnamed 1)

variable {a : Arrangement} {n m : Nat}

theorem length_names (n : Nat) (a : Arrangement) : (a.names n).length = a.size := by
  induction a generalizing n with
  | nil => rfl
  | rule name rest ih => rw [names, List.length_cons, ih, size]
  | load inner rest ihi ihr => rw [names, List.length_append, ihi, ihr, size]

theorem le_of_mem_unnamed (h : m ∈ a.unnamed n) : n ≤ m := by
  induction a generalizing n with
  | nil => cases h
  | rule name rest ih =>
    rw [unnamed] at h
    split at h
    · rcases List.mem_cons.1 h with rfl | h
      · exact Nat.le_refl _
      · exact Nat.le_of_succ_le (ih h)
    · exact Nat.le_of_succ_le (ih h)
  | load inner rest _ ih => exact Nat.le_trans (Nat.le_add_right n _) (ih h)

theorem nodup_unnamed (n : Nat) (a : Arrangement) : (a.unnamed n).Nodup := by
  induction a generalizing n with
  | nil => exact List.nodup_nil
  | rule name rest ih =>
    rw [unnamed]
    split
    · refine List.nodup_cons.2 ⟨fun h => ?_, ih _⟩
      exact Nat.not_succ_le_self n (le_of_mem_unnamed h)
    · exact ih _
  | load inner rest _ ih => exact ih _

/-- **The names** are those given, and those for the places of rules without names, every list
having places of its own. -/
theorem names_perm (n : Nat) (a : Arrangement) :
    (a.names n).Perm
      (a.given ++ (a.unnamed n ++ a.loads.flatMap (unnamed 1)).map placeName) := by
  induction a generalizing n with
  | nil => exact .nil
  | rule name rest ih =>
    rw [names, given, unnamed, loads]
    split
    · rw [List.cons_append, List.map_cons]
      exact ((ih (n + 1)).cons _).trans List.perm_middle.symm
    · exact (ih (n + 1)).cons _
  | load inner rest ihi ihr =>
    rw [names, given, unnamed, loads]
    refine List.perm_iff_count.2 fun name => ?_
    have hinner := (ihi 1).count_eq name
    have hrest := (ihr (n + inner.size)).count_eq name
    simp only [List.cons_append, List.flatMap_cons, List.flatMap_append, List.map_append,
      List.count_append] at hinner hrest ⊢
    omega

/-- **Different names.**  Where the names given are different and none for a place, all names are
different exactly where no two lists have rules without names at the same place. -/
theorem nodup_names_iff (hgiven : a.given.Nodup) (hplaces : ∀ n, placeName n ∉ a.given) :
    (a.names 1).Nodup ↔ a.Apart := by
  have hapart : ((a :: a.loads).flatMap (unnamed 1)).Nodup ↔ a.Apart :=
    List.nodup_flatMap.trans (and_iff_right fun b _ => nodup_unnamed 1 b)
  rw [(names_perm 1 a).nodup_iff, ← hapart, ← List.flatMap_cons, List.nodup_append,
    List.nodup_map_iff placeName_injective]
  refine ⟨fun h => h.2.1, fun h => ⟨hgiven, h, fun name hname other hother heq => ?_⟩⟩
  obtain ⟨m, -, rfl⟩ := List.mem_map.1 hother
  exact hplaces m (heq ▸ hname)

end Arrangement

/-! ## Loading -/

namespace FileSet

open Rule

variable {fs : FileSet} {base : Path} {text : String} {lines : List String}
  {included log : List Location} {rs new : List Rule} {res : Except LoadError Loaded}

/-- How the lines of a file are arranged. -/
inductive Arranged (fs : FileSet) : Path → List String → Arrangement → Prop
  | nil {base : Path} : Arranged fs base [] .nil
  | group {base : Path} {line name : String} {lines : List String} {a : Arrangement} :
      ListLine.ofString line = .group name → Arranged fs base lines a →
      Arranged fs base (line :: lines) a
  | load {base q : Path} {line path text : String} {lines : List String}
      {inner a : Arrangement} : ListLine.ofString line = .load path →
      q = base.join (Path.ofString path) → fs.read q = .ok text →
      Arranged fs q.parent (linesOf text) inner → Arranged fs base lines a →
      Arranged fs base (line :: lines) (.load inner a)
  | blank {base : Path} {line : String} {lines : List String} {a : Arrangement} :
      ListLine.ofString line = .other → ofLine line = .ok none → Arranged fs base lines a →
      Arranged fs base (line :: lines) a
  | rule {base : Path} {line : String} {lines : List String} {r : Rule} {a : Arrangement} :
      ListLine.ofString line = .other → ofLine line = .ok (some r) → Arranged fs base lines a →
      Arranged fs base (line :: lines) (.rule r.name a)

/-- Lines are arranged in one way. -/
theorem Arranged.unique {a b : Arrangement} (h : fs.Arranged base lines a)
    (h' : fs.Arranged base lines b) : b = a := by
  induction h generalizing b with
  | nil =>
    cases h'
    rfl
  | group hkind _ ih =>
    cases h' with
    | group _ h' => exact ih h'
    | _ => simp_all
  | load hkind hq hread _ _ ihi ihr =>
    subst hq
    cases h' with
    | load hkind' hq' hread' hinner hrest =>
      rw [hkind] at hkind'
      cases hkind'
      subst hq'
      rw [hread] at hread'
      cases hread'
      rw [ihi hinner, ihr hrest]
    | _ => simp_all
  | blank hkind hline _ ih =>
    cases h' with
    | blank _ _ h' => exact ih h'
    | _ => simp_all
  | rule hkind hline _ ih =>
    cases h' with
    | rule _ hline' h' =>
      rw [hline] at hline'
      cases hline'
      rw [ih h']
    | _ => simp_all

theorem name_inGroup (group : String) (r : Rule) : (inGroup group r).name = r.name := by
  rw [inGroup]
  split <;> rfl

/-- Rules with names keep them, and take up places before the others. -/
theorem names_nameFrom_append (hnew : ∀ r ∈ new, r.name ≠ "") (n : Nat) (rs : List Rule) :
    (nameFrom n (new ++ rs)).map (·.name) =
      new.map (·.name) ++ (nameFrom (n + new.length) rs).map (·.name) := by
  induction new generalizing n with
  | nil => rfl
  | cons r new ih =>
    obtain ⟨hr, hrest⟩ := List.forall_mem_cons.1 hnew
    have hname : ¬ r.name.isEmpty = true := by simpa using hr
    rw [List.cons_append, nameFrom, if_neg hname, List.map_cons, ih hrest, List.length_cons,
      Nat.add_right_comm, Nat.add_assoc n]
    rfl

/-- The names of what is loaded: rules of a file have got them, those of lines are to get them. -/
def Task.Arranges (fs : FileSet) (rs : List Rule) : Task → Prop
  | .file p => ∃ text a, fs.read p = .ok text ∧ fs.Arranged p.parent (linesOf text) a ∧
      rs.map (·.name) = a.names 1 ∧ ∀ r ∈ rs, r.name ≠ ""
  | .lines base lines _ => ∃ a, fs.Arranged base lines a ∧
      ∀ n, (nameFrom n rs).map (·.name) = a.names n

/-- **What is loaded has the names of its arrangement**, by induction on the derivation. -/
theorem Loads.arranges {task : Task} (h : fs.Loads task included log res) :
    ∀ loaded, res = .ok loaded → task.Arranges fs loaded.1 := by
  induction h with
  | unreadable _ => rintro loaded ⟨⟩
  | read hread _ ih =>
    intro loaded hok
    obtain ⟨lines, hlines, rfl⟩ := exists_of_map_eq_ok hok
    obtain ⟨a, ha, hnames⟩ := ih lines hlines
    exact ⟨_, a, hread, ha, hnames 1, fun r hr => name_ne_of_mem_nameFrom hr⟩
  | done =>
    rintro loaded ⟨⟩
    exact ⟨.nil, .nil, fun n => rfl⟩
  | group hkind _ ih =>
    intro loaded hok
    obtain ⟨a, ha, hnames⟩ := ih loaded hok
    exact ⟨a, .group hkind ha, hnames⟩
  | malformed _ _ => rintro loaded ⟨⟩
  | @rule _ _ group _ _ _ new _ hkind hline _ ih =>
    intro loaded hok
    obtain ⟨rest, hrest, rfl⟩ := exists_of_map_eq_ok hok
    obtain ⟨a, ha, hnames⟩ := ih rest hrest
    cases new with
    | none => exact ⟨a, .blank hkind hline ha, hnames⟩
    | some r =>
      refine ⟨.rule r.name a, .rule hkind hline ha, fun n => ?_⟩
      change (nameFrom n (inGroup group r :: rest.1)).map (·.name) = _
      rw [nameFrom, List.map_cons, hnames, Arrangement.names, name_inGroup]
      split
      · rfl
      · rw [name_inGroup]
  | refused _ _ => rintro loaded ⟨⟩
  | broken _ _ _ _ _ => rintro loaded ⟨⟩
  | @load _ _ _ _ group _ _ _ _ _ new _ hkind hq _ _ _ ih ih' =>
    intro loaded hok
    obtain ⟨rest, hrest, rfl⟩ := exists_of_map_eq_ok hok
    obtain ⟨text, inner, hread, hinner, hnew, hnamed⟩ := ih (new, _) rfl
    obtain ⟨a, ha, hnames⟩ := ih' rest hrest
    have hgrouped : (new.map (inGroup group)).map (·.name) = inner.names 1 := by
      rw [List.map_map, ← hnew]
      exact List.map_congr_left fun r _ => name_inGroup group r
    have hlength : (new.map (inGroup group)).length = inner.size := by
      have hlengths := congrArg List.length hgrouped
      rwa [List.length_map, Arrangement.length_names] at hlengths
    refine ⟨.load inner a, .load hkind hq hread hinner ha, fun n => ?_⟩
    rw [names_nameFrom_append, hgrouped, hlength, hnames, Arrangement.names]
    intro r hr
    obtain ⟨r₀, hr₀, rfl⟩ := List.mem_map.1 hr
    rw [name_inGroup]
    exact hnamed r₀ hr₀

/-- A text of which the rules have been loaded: one whose includes start at the current directory,
or that of a file. -/
inductive LoadedFrom (fs : FileSet) : Path → String → List Rule → Prop
  | text {text : String} {rs : List Rule} : loadText fs text = .ok rs →
      LoadedFrom fs Path.current text rs
  | file {path text : String} {rs : List Rule} : fs.read (Path.ofString path) = .ok text →
      loadFile fs path = .ok rs → LoadedFrom fs (Path.ofString path).parent text rs

theorem LoadedFrom.arranged (h : fs.LoadedFrom base text rs) :
    ∃ a, fs.Arranged base (linesOf text) a ∧ rs.map (·.name) = a.names 1 := by
  cases h with
  | text h =>
    obtain ⟨loaded, hload, rfl⟩ := exists_of_map_eq_ok h
    obtain ⟨⟨lines, included⟩, hlines, hnamed⟩ := exists_of_bind_eq_ok hload
    cases hnamed
    have hspare : fs.Spare (includeDepth fs) [] :=
      ⟨List.nodup_nil, List.forall_mem_nil _, by rw [includeDepth, List.length_nil]; omega⟩
    obtain ⟨log, hlog⟩ := exists_loads_lines Path.current (linesOf text) ""
      (fun q included hq => exists_loads hq) hspare
    rw [hlines] at hlog
    obtain ⟨a, ha, hnames⟩ := hlog.arranges _ rfl
    exact ⟨a, ha, hnames 1⟩
  | @file path text rs hread h =>
    obtain ⟨loaded, hload, rfl⟩ := exists_of_map_eq_ok h
    obtain ⟨log, hlog⟩ := exists_loads (spareFor_start fs 0 (Path.ofString path))
    rw [Nat.add_zero, hload] at hlog
    obtain ⟨text', a, hread', ha, hnames, -⟩ := hlog.arranges _ rfl
    rw [hread] at hread'
    cases hread'
    exact ⟨a, ha, hnames⟩

/-- **Names of loaded rules.**  A text that has been loaded is arranged in one way, and its rules
have the names of that arrangement.  Where the names given are different and none is for a place,
all names are different exactly where no two of the lists have rules without names at the same
place; and then the reports of the rules' runs give each rule its own counts. -/
theorem LoadedFrom.distinctNames_iff (h : fs.LoadedFrom base text rs) :
    ∃ a, (∀ b, fs.Arranged base (linesOf text) b ↔ b = a) ∧ rs.map (·.name) = a.names 1 ∧
      (a.given.Nodup → (∀ n, placeName n ∉ a.given) →
        ((rs.map (·.name)).Nodup ↔ a.Apart) ∧
        (a.Apart → ∀ limits analysis r, Runner.Underway rs limits analysis r →
          r.report.KeepsApart rs limits analysis)) := by
  obtain ⟨a, ha, hnames⟩ := h.arranged
  refine ⟨a, fun b => ⟨ha.unique, ?_⟩, hnames, fun hgiven hplaces => ?_⟩
  · rintro rfl
    exact ha
  · have hiff : (rs.map (·.name)).Nodup ↔ a.Apart := by
      rw [hnames]
      exact Arrangement.nodup_names_iff hgiven hplaces
    exact ⟨hiff, fun hapart limits analysis r hr => hr.keepsApart (hiff.2 hapart)⟩

/-! ## Sets of files -/

/-- The arrangement of lines, for so many lines and includes at most. -/
def arrangement? (fs : FileSet) : Nat → Path → List String → Option Arrangement
  | _, _, [] => some .nil
  | 0, _, _ :: _ => none
  | n + 1, base, line :: lines =>
    match ListLine.ofString line with
    | .group _ => fs.arrangement? n base lines
    | .load path => do
      let q := base.join (Path.ofString path)
      let text ← (fs.read q).toOption
      let inner ← fs.arrangement? n q.parent (linesOf text)
      let rest ← fs.arrangement? n base lines
      return .load inner rest
    | .other => do
      let new ← (ofLine line).toOption
      let rest ← fs.arrangement? n base lines
      return new.elim rest fun r => .rule r.name rest

theorem arranged_of_arrangement? {n : Nat} {a : Arrangement}
    (h : fs.arrangement? n base lines = some a) : fs.Arranged base lines a := by
  induction n generalizing base lines a with
  | zero =>
    cases lines with
    | nil =>
      cases h
      exact .nil
    | cons line lines => cases h
  | succ n ih =>
    cases lines with
    | nil =>
      cases h
      exact .nil
    | cons line lines =>
      rw [arrangement?] at h
      split at h
      · next hkind => exact .group hkind (ih h)
      · next hkind =>
        obtain ⟨text, htext, h⟩ := Option.bind_eq_some_iff.1 h
        obtain ⟨inner, hinner, h⟩ := Option.bind_eq_some_iff.1 h
        obtain ⟨rest, hrest, h⟩ := Option.bind_eq_some_iff.1 h
        cases h
        exact .load hkind rfl (eq_ok_of_toOption htext) (ih hinner) (ih hrest)
      · next hkind =>
        obtain ⟨new, hnew, h⟩ := Option.bind_eq_some_iff.1 h
        obtain ⟨rest, hrest, h⟩ := Option.bind_eq_some_iff.1 h
        have hline := eq_ok_of_toOption hnew
        cases new with
        | none =>
          cases h
          exact .blank hkind hline (ih hrest)
        | some r =>
          cases h
          exact .rule hkind hline (ih hrest)

theorem exists_arranged (fs : FileSet) (path : String) (n : Nat) {a : Arrangement}
    (h : (fs.read (Path.ofString path)).toOption.bind (fun text =>
      fs.arrangement? n (Path.ofString path).parent (linesOf text)) = some a) :
    ∃ text, fs.read (Path.ofString path) = .ok text ∧
      fs.Arranged (Path.ofString path).parent (linesOf text) a := by
  obtain ⟨text, htext, ha⟩ := Option.bind_eq_some_iff.1 h
  exact ⟨text, eq_ok_of_toOption htext, arranged_of_arrangement? ha⟩

/-- The rules of a file, none if it cannot be loaded. -/
def rulesOf (fs : FileSet) (path : String) : List Rule := (loadFile fs path).toOption.getD []

theorem loadFile_eq_rulesOf (fs : FileSet) (path : String)
    (h : (loadFile fs path).toOption.isSome = true) :
    loadFile fs path = .ok (fs.rulesOf path) := by
  obtain ⟨rs, hrs⟩ := Option.isSome_iff_exists.1 h
  rw [rulesOf, hrs]
  exact eq_ok_of_toOption hrs

/-- A runner of the rules of a file, seeded with a term. -/
def seeded (fs : FileSet) (path : String) (t : Term) : Runner :=
  Runner.after (Runner.seed t) (.make (fs.rulesOf path) .default .constantFolding)

theorem underway_seeded {path : String} {t : Term} (h : (success? (Runner.seed t
      (.make (fs.rulesOf path) .default .constantFolding))).isSome = true) :
    Runner.Underway (fs.rulesOf path) .default .constantFolding (fs.seeded path t) := by
  obtain ⟨⟨id, r⟩, hr⟩ := Option.isSome_iff_exists.1 h
  have hseed := eq_ok_of_success? hr
  rw [seeded, Runner.after, hseed]
  exact Runner.Underway.make.seed _ hseed

theorem head?_placeName (n : Nat) : (placeName n).toList.head? = some 'r' := by
  rw [placeName, String.toList_append]
  rfl

/-- Three files, in which two rules have no names. -/
def sums : FileSet := .ofList [
  ("main", "@back: (+ ?x) => :x\n:include lib/sums\n?x => (+ :x)\n"),
  ("lib/sums", ":include zero\n[sums]\n@swap: (+ ?x ?y) => (+ :y :x)\n"),
  ("lib/zero", "(+ ?x 0) => :x\n")]

/-- The rules without names are at places 1 and 4 of their lists. -/
def sumsArrangement : Arrangement :=
  .rule "back" (.load (.load (.rule "" .nil) (.rule "swap" .nil)) (.rule "" .nil))

/-- All names are different, and the report of a run on `x + 0` has a count for every rule. -/
theorem distinctNames_sums :
    ∃ text rs, loadFile sums "main" = .ok rs ∧
      sums.LoadedFrom (Path.ofString "main").parent text rs ∧
      sums.Arranged (Path.ofString "main").parent (linesOf text) sumsArrangement ∧
      sumsArrangement.given.Nodup ∧ (∀ n, placeName n ∉ sumsArrangement.given) ∧
      rs.map (·.name) = ["back", "rule-1", "swap", "rule-4"] ∧ (rs.map (·.name)).Nodup ∧
      ∃ r, Runner.Underway rs .default .constantFolding r ∧
        r.report.ruleCounts = [("rule-1", 1), ("swap", 1), ("rule-4", 1)] ∧
        r.report.KeepsApart rs .default .constantFolding := by
  obtain ⟨text, hread, ha⟩ :=
    exists_arranged sums "main" 10 (a := sumsArrangement) (by decide +kernel)
  have hload := loadFile_eq_rulesOf sums "main" (by decide +kernel)
  have hloaded := LoadedFrom.file hread hload
  have hplaces : ∀ n, placeName n ∉ sumsArrangement.given := by
    intro n hn
    have hheads : ∀ name ∈ sumsArrangement.given, name.toList.head? ≠ some 'r' := by decide
    exact hheads _ hn (head?_placeName n)
  have hapart : sumsArrangement.Apart := by
    simp [sumsArrangement, Arrangement.Apart, Arrangement.loads, Arrangement.unnamed,
      Arrangement.size]
  obtain ⟨a, harranged, hnames, hall⟩ := hloaded.distinctNames_iff
  obtain rfl := (harranged _).1 ha
  obtain ⟨hiff, hreports⟩ := hall (by decide) hplaces
  refine ⟨text, _, hload, hloaded, ha, by decide, hplaces, hnames, hiff.2 hapart, ?_⟩
  have hrun : (success? (Runner.run (sums.seeded "main" (.ofTree
      (.binary .add (.leaf (.var "x")) (.leaf (.const (.int 0)))))))).map
        (fun p => p.2.report.ruleCounts) =
      some [("rule-1", 1), ("swap", 1), ("rule-4", 1)] := by decide +kernel
  obtain ⟨⟨reason, r⟩, hr, hcounts⟩ := Option.map_eq_some_iff.1 hrun
  have hunderway := (underway_seeded (by decide +kernel)).run (eq_ok_of_success? hr)
  exact ⟨r, hunderway, hcounts, hreports hapart _ _ r hunderway⟩

/-- Two files with one rule each, which has no name. -/
def twoFiles : FileSet := .ofList [
  ("main", ":include left\n:include right\n"),
  ("left", "?x => (+ :x)\n"),
  ("right", "(+ ?x) => :x\n")]

/-- Both rules of the two files get the same name.  A round that finds one of them twice and the
other once reports one match. -/
theorem not_distinctNames :
    (¬ ∀ (fs : FileSet) (base : Path) (text : String) (rs : List Rule) (a : Arrangement),
      fs.LoadedFrom base text rs → fs.Arranged base (linesOf text) a → a.given.Nodup →
      (∀ n, placeName n ∉ a.given) → (rs.map (·.name)).Nodup) ∧
    ∃ rs r it g, loadFile twoFiles "main" = .ok rs ∧
      Runner.Underway rs .default .constantFolding r ∧
      EGraph.saturateOnce rs Limits.default.nodes r.report.iterations.size r.egraph = .ok it g ∧
      rs.map (fun rule => (rule.name, (rule.search r.egraph).length)) =
        [("rule-1", 2), ("rule-1", 1)] ∧
      it.found = [("rule-1", 1)] := by
  have hload := loadFile_eq_rulesOf twoFiles "main" (by decide +kernel)
  constructor
  · intro hall
    obtain ⟨text, hread, ha⟩ := exists_arranged twoFiles "main" 5
      (a := .load (.rule "" .nil) (.load (.rule "" .nil) .nil)) (by decide +kernel)
    have hnodup := hall _ _ _ _ _ (.file hread hload) ha (by decide)
      fun n => by simp [Arrangement.given]
    have hsame : (twoFiles.rulesOf "main").map (·.name) = ["rule-1", "rule-1"] := by decide +kernel
    rw [hsame] at hnodup
    exact absurd hnodup (by decide)
  · have hround : (success? (EGraph.saturateOnce (twoFiles.rulesOf "main") Limits.default.nodes
        (twoFiles.seeded "main" (.ofTree (.unary .plus (.leaf (.var "x"))))).report.iterations.size
        (twoFiles.seeded "main" (.ofTree (.unary .plus (.leaf (.var "x"))))).egraph)).map
          (fun p => p.1.found) = some [("rule-1", 1)] := by decide +kernel
    obtain ⟨⟨it, g⟩, hr, hfound⟩ := Option.map_eq_some_iff.1 hround
    exact ⟨_, _, it, g, hload, underway_seeded (by decide +kernel), eq_ok_of_success? hr,
      by decide +kernel, hfound⟩

end FileSet

end EqSat
