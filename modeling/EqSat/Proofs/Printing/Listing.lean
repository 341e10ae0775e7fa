import EqSat.Proofs.Printing.Loaded
import Mathlib.Data.List.Chain

/-!
# Rule lists as text and back

A listing names the group of a rule only where a group starts, and a loaded line belongs to the last
group that was named.  So a rule without a group is loaded into the group of the rules in front of
it.  All else about the rules comes back, whatever list was printed; the groups come back too
exactly where no rule without a group stands behind a rule that has one.

    loadText_listing             a printed list loads as the list, regrouped
    regroup_eq_self_iff          when that is the list
    Listed.reload                both, for every list that was loaded
-/

namespace EqSat.Rule

variable {r : Rule} {rs : List Rule} {fs : FileSet} {base : Path} {group g : String}
  {included : List Location} {line : String} {lines : List String} {current : Option String}
  {first : Bool} {load : Path → List Location → Except LoadError Loaded}

/-- The rules with those that have no group in the last group before them, `group` at first. -/
def regroup : String → List Rule → List Rule
  | _, [] => []
  | group, r :: rs => inGroup group r :: regroup (r.group?.getD group) rs

/-! ## Loading the lines of a listing -/

theorem loadLines_empty : loadLines fs base load ("" :: lines) group included =
    loadLines fs base load lines group included := by
  have hkind : ListLine.ofString "" = .other := rfl
  have hread : ofLine "" = .ok none := rfl
  rw [loadLines, hkind]
  dsimp only
  rw [hread]
  cases loadLines fs base load lines group included <;> rfl

theorem loadLines_header (hg : Bracketable g) (group : String) :
    loadLines fs base load (("[" ++ g ++ "]") :: lines) group included =
      loadLines fs base load lines g included := by
  have hlist : ("[" ++ g ++ "]").toList = '[' :: (g.toList ++ [']']) := by simp
  have htrim : Text.Trimmed ('[' :: (g.toList ++ [']'])) :=
    ⟨by simpa using (show Text.isBlank '[' = false by decide), by
      rw [← List.cons_append, List.getLast?_concat]
      simpa using (show Text.isBlank ']' = false by decide)⟩
  have hkind : ListLine.ofString ("[" ++ g ++ "]") = .group g := by
    rw [ListLine.ofString, hlist, Text.strip_of_trimmed htrim]
    have hlast : ('[' :: (g.toList ++ [']'])).getLast? = some ']' := by
      rw [← List.cons_append, List.getLast?_concat]
    simp [hlast, Text.strip_of_trimmed hg.trimmed]
  rw [loadLines, hkind]

theorem loadLines_line (hp : r.Printable) (hn : r.name ≠ "") {result : Loaded}
    (h : loadLines fs base load lines group included = .ok result) :
    loadLines fs base load (r.line :: lines) group included =
      .ok (inGroup group { r with tags := [] } :: result.1, result.2) := by
  obtain ⟨cs, hcs⟩ : ∃ cs, r.line.toList = '@' :: cs := ⟨_, toList_line hp.description⟩
  have hinclude : includeWord.head? = some ':' := by decide
  have hkind : ListLine.ofString r.line = .other := by
    rw [ListLine.ofString, Text.strip_of_trimmed (trimmed_line hp.toWritable), hcs, if_neg (by simp),
      if_neg fun hpre => ?_]
    obtain ⟨t, ht⟩ := List.isPrefixOf_iff_prefix.1 hpre
    cases hword : includeWord with
    | nil => simp [hword] at hinclude
    | cons c word =>
      rw [hword] at hinclude ht
      cases ht
      cases hinclude
  rw [loadLines, hkind]
  dsimp only
  rw [ofLine_line hp.toWritable hn, h]
  rfl

/-- A rule without a group joins the group in force; one with a group is loaded where its group is
in force. -/
theorem inGroup_untagged (h : r.tags = []) :
    inGroup group { r with tags := [] } = inGroup group r := by
  rw [← h]

theorem inGroup_retagged (h : r.tags = [g]) (hg : g ≠ "") :
    inGroup g { r with tags := [] } = r ∧ inGroup group r = r := by
  constructor
  · rw [inGroup, if_neg (by simp [hg]), ← h]
  · rw [inGroup, if_pos (by simp [h])]

/-- The lines of a listing load as the rules, regrouped, if the group that was named last is in
force. -/
theorem loadLines_listingLines (hrs : ∀ r ∈ rs, r.Printable ∧ r.name ≠ "")
    (hcurrent : ∀ g ∈ current, group = g) :
    loadLines fs base load (listingLines first current rs ++ [""]) group included =
      .ok (regroup group rs, included) := by
  induction rs generalizing first current group with
  | nil => exact loadLines_empty
  | cons r rs ih =>
    obtain ⟨⟨hp, hn⟩, hrest⟩ := List.forall_mem_cons.1 hrs
    rcases hp.tags with htags | ⟨g, htags, hg⟩
    · have hnone : r.group? = none := by rw [group?, htags]; rfl
      have hlines : loadLines fs base load (listingLines false none rs ++ [""]) group included =
          .ok (regroup group rs, included) := ih hrest (by simp)
      have hload := loadLines_line hp hn hlines
      rw [listingLines, hnone, regroup, hnone, ← inGroup_untagged htags]
      exact hload
    · have hsome : r.group? = some g := by rw [group?, htags]; rfl
      have hlines : loadLines fs base load (listingLines false (some g) rs ++ [""]) g included =
          .ok (regroup g rs, included) := ih hrest (by simp)
      have hload := loadLines_line hp hn hlines
      obtain ⟨hback, hkeep⟩ := inGroup_retagged htags hg.ne_empty
      rw [hback] at hload
      rw [listingLines, hsome, regroup, hsome, hkeep]
      by_cases hcur : current = some g
      · rw [hcurrent g hcur]
        simpa [hcur] using hload
      · have hheader := (loadLines_header hg group).trans hload
        simp only [hcur, if_false]
        cases first with
        | true => exact hheader
        | false => exact loadLines_empty.trans hheader

/-! ## The text of a listing -/

theorem not_break_listingLines (hrs : ∀ r ∈ rs, r.Printable ∧ r.name ≠ "") :
    ∀ line ∈ listingLines first current rs, '\n' ∉ line.toList := by
  induction rs generalizing first current with
  | nil => exact List.forall_mem_nil _
  | cons r rs ih =>
    obtain ⟨⟨hp, -⟩, hrest⟩ := List.forall_mem_cons.1 hrs
    have hlines : ∀ line ∈ r.line :: listingLines false r.group? rs, '\n' ∉ line.toList :=
      List.forall_mem_cons.2 ⟨not_break_line hp, ih hrest⟩
    refine List.forall_mem_append.2 ⟨?_, hlines⟩
    rcases hp.tags with htags | ⟨g, htags, hg⟩
    · simp [group?, htags]
    · have hheader : '\n' ∉ ("[" ++ g ++ "]").toList := by simpa using hg.not_break
      rw [group?, htags]
      by_cases hcur : current = some g <;> cases first <;> simp_all

theorem intercalate_concat_nil {ls : List (List Char)} (hne : ls ≠ []) :
    ['\n'].intercalate (ls ++ [[]]) = ['\n'].intercalate ls ++ ['\n'] := by
  induction ls with
  | nil => exact absurd rfl hne
  | cons l ls ih =>
    by_cases hls : ls = []
    · simp [hls, List.intercalate_cons_cons, List.intercalate_singleton]
    · rw [List.cons_append, List.intercalate_cons_of_ne_nil (by simp), ih hls,
        List.intercalate_cons_of_ne_nil hls, List.append_assoc, List.append_assoc,
        List.append_assoc]

/-- A listing is its lines with an empty one at the end. -/
theorem toList_listing (hne : listingLines true none rs ≠ []) : (listing rs).toList =
    ['\n'].intercalate ((listingLines true none rs ++ [""]).map String.toList) := by
  have hmap : (listingLines true none rs).map String.toList ≠ [] := by simpa using hne
  rw [listing, String.toList_append, String.toList_intercalate, List.map_append]
  exact (intercalate_concat_nil hmap).symm

theorem linesOf_listing (hrs : ∀ r ∈ rs, r.Printable ∧ r.name ≠ "") (hne : rs ≠ []) :
    linesOf (listing rs) = listingLines true none rs ++ [""] := by
  have hlines : listingLines true none rs ≠ [] := by
    cases rs with
    | nil => exact absurd rfl hne
    | cons r rs => simp [listingLines]
  have hbreak : ∀ l ∈ (listingLines true none rs ++ [""]).map String.toList, '\n' ∉ l := by
    intro l hl
    obtain ⟨line, hline, rfl⟩ := List.mem_map.1 hl
    rcases List.mem_append.1 hline with hline | hline
    · exact not_break_listingLines hrs line hline
    · obtain rfl := List.mem_singleton.1 hline
      exact List.not_mem_nil
  rw [linesOf, toList_listing hlines, List.splitOn_intercalate '\n' hbreak (by simp),
    List.map_map]
  simp

theorem nameFrom_eq_self {n : Nat} (h : ∀ r ∈ rs, r.name ≠ "") : nameFrom n rs = rs := by
  induction rs generalizing n with
  | nil => rfl
  | cons r rs ih =>
    obtain ⟨hr, hrs⟩ := List.forall_mem_cons.1 h
    rw [nameFrom, ih hrs, if_neg (by simpa using hr)]

/-! ## Regrouped rules -/

theorem inGroup_eq_self_iff : inGroup group r = r ↔ group = "" ∨ r.tags ≠ [] := by
  rw [inGroup]
  split
  · next h => simpa using h
  · next h =>
    simp only [Bool.or_eq_true, String.isEmpty_iff, Bool.not_eq_true', not_or] at h
    have htags : r.tags = [] := by simpa using h.2
    simp only [h.1, htags, ne_eq, not_true_eq_false, or_self, iff_false]
    intro he
    rw [← he] at htags
    cases htags

/-- All but the groups of the rules without one is kept. -/
theorem forall₂_regroup (group : String) (rs : List Rule) :
    List.Forall₂ (fun r r' => r' = { r with tags := r'.tags } ∧ (r.tags ≠ [] → r' = r)) rs
      (regroup group rs) := by
  induction rs generalizing group with
  | nil => exact .nil
  | cons r rs ih =>
    refine .cons ⟨?_, fun htags => inGroup_eq_self_iff.2 (.inr htags)⟩ (ih _)
    rw [inGroup]
    split <;> rfl

theorem name_ne_of_mem_regroup (hrs : ∀ r ∈ rs, r.name ≠ "") :
    ∀ r ∈ regroup group rs, r.name ≠ "" := by
  induction rs generalizing group with
  | nil => exact List.forall_mem_nil _
  | cons r rs ih =>
    obtain ⟨hr, hrest⟩ := List.forall_mem_cons.1 hrs
    refine List.forall_mem_cons.2 ⟨?_, ih hrest⟩
    rw [inGroup]
    split <;> exact hr

/-- Nothing is regrouped where no rule without a group stands behind one that has a group. -/
theorem regroup_eq_self_iff (hrs : ∀ r ∈ rs, r.Printable ∧ r.name ≠ "") : regroup group rs = rs ↔
    (group ≠ "" → ∀ r ∈ rs.head?, r.tags ≠ []) ∧
      rs.IsChain fun r s => r.tags ≠ [] → s.tags ≠ [] := by
  induction rs generalizing group with
  | nil => simp [regroup]
  | cons r rs ih =>
    obtain ⟨⟨hp, -⟩, hrest⟩ := List.forall_mem_cons.1 hrs
    rw [regroup, List.cons.injEq, ih hrest, inGroup_eq_self_iff, List.isChain_cons]
    rcases hp.tags with htags | ⟨g, htags, hg⟩
    · have hgroup : r.group?.getD group = group := by rw [group?, htags]; rfl
      rw [hgroup]
      simp only [htags, List.head?_cons]
      grind
    · have hgroup : r.group?.getD group = g := by rw [group?, htags]; rfl
      rw [hgroup]
      simp [htags, hg.ne_empty]

/-! ## Reloading -/

/-- A printed list loads as the list, regrouped. -/
theorem loadText_listing (hrs : ∀ r ∈ rs, r.Printable ∧ r.name ≠ "") (fs : FileSet) :
    loadText fs (listing rs) = .ok (regroup "" rs) := by
  have hload : ∀ load, loadLines fs Path.current load (linesOf (listing rs)) "" [] =
      .ok (regroup "" rs, []) := by
    intro load
    by_cases hne : rs = []
    · subst hne
      exact loadLines_empty.trans loadLines_empty
    · rw [linesOf_listing hrs hne]
      exact loadLines_listingLines hrs (by simp)
  have hnames : ∀ r ∈ regroup "" rs, r.name ≠ "" :=
    name_ne_of_mem_regroup fun r hr => (hrs r hr).2
  rw [loadText, loadTextWith, hload]
  show Except.ok (nameFrom 1 (regroup "" rs)) = _
  rw [nameFrom_eq_self hnames]

/-- What comes back of a list that was loaded, when it is printed and loaded again. -/
theorem Listed.reload (h : Listed rs) (fs : FileSet) :
    loadText fs (listing rs) = .ok (regroup "" rs) ∧
    List.Forall₂ (fun r r' => r' = { r with tags := r'.tags } ∧ (r.tags ≠ [] → r' = r)) rs
      (regroup "" rs) ∧
    (loadText fs (listing rs) = .ok rs ↔ rs.IsChain fun r s => r.tags ≠ [] → s.tags ≠ []) := by
  have hload := loadText_listing h.printable fs
  refine ⟨hload, forall₂_regroup "" rs, ?_⟩
  rw [hload, Except.ok.injEq, regroup_eq_self_iff h.printable]
  simp

theorem vars_le_pos (p : Pattern) : ∀ v ∈ p.vars, v ∈ (Default.pos p).vars := fun _ hv => hv

theorem vars_pos_le (p : Pattern) : ∀ v ∈ (Default.pos p).vars, v ∈ p.vars := fun _ hv => hv

/-- A group of one rule, and a rule behind the end of the group. -/
def endedGroup : String := "[g]\n@a: ?x => (+ :x)\n[]\n@b: (+ ?x) => :x\n"

/-- The rules of that text: the second one belongs to no group. -/
def endedRules : List Rule := [
  Default.rule "g" "a" Default.x (Default.pos Default.x) (vars_pos_le Default.x),
  { Default.rule "" "b" (Default.pos Default.x) Default.x (vars_le_pos Default.x) with
    tags := [] }]

theorem loadText_endedGroup : loadText .empty endedGroup = .ok endedRules :=
  eq_ok_of_toOption (by decide +kernel)

/-- The listing ends no group, so the second rule is loaded into the group of the first. -/
theorem reload_endedRules :
    loadText .empty endedGroup = .ok endedRules ∧
    loadText .empty (listing endedRules) = .ok (regroup "" endedRules) ∧
    (regroup "" endedRules).map Rule.tags = [["g"], ["g"]] :=
  ⟨loadText_endedGroup, (Listed.reload (.text .empty endedGroup loadText_endedGroup) .empty).1,
    by decide⟩

theorem not_reload : ¬ ∀ (fs : FileSet) (source : String) (rs : List Rule),
    loadText fs source = .ok rs → loadText fs (listing rs) = .ok rs := by
  intro h
  have hreload := h .empty endedGroup endedRules loadText_endedGroup
  have hother : (loadText .empty (listing endedRules)).toOption ≠ some endedRules := by
    decide +kernel
  exact hother (by rw [hreload]; rfl)

end EqSat.Rule
