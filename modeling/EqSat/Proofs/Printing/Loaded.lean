import EqSat.CommandLine
import EqSat.Proofs.Printing.Line

/-!
# Rules that were loaded

Every rule of a list that was loaded has a name and is printable: it comes from a line of some text,
and grouping and naming keep what printing needs.  The built-in rules are printable as well, so the
same holds of the rules that the command line works with.

    printable_of_loadLines       by induction on the lines, for any way to load a file
    printable_of_loadFileWithin  by induction on the depth of includes
    Listed.printable             rules of a text, or of a command
-/

namespace EqSat.Rule

variable {r : Rule} {rs : List Rule} {fs : FileSet} {base : Path} {group : String}
  {included included' : List Location} {line : String} {lines : List String}
  {load : Path → List Location → Except LoadError Loaded}

/-- A group in force while lines are read: none, or one with a name that can be printed. -/
def GroupInForce (group : String) : Prop := group = "" ∨ Bracketable group

/-! ## Groups and names -/

theorem Printable.inGroup (h : r.Printable) (hg : GroupInForce group) :
    (inGroup group r).Printable := by
  rw [Rule.inGroup]
  split
  · exact h
  · next hnot =>
    have hne : group ≠ "" := fun he => hnot (by simp [he])
    exact ⟨⟨⟨h.lhs, h.rhs, h.lhs_arrow, h.rhs_ne⟩, h.name, h.description⟩, h.one_line,
      .inr ⟨group, rfl, hg.resolve_left hne⟩⟩

/-- The names that rules get are names. -/
theorem isNameChar_numbered (n : Nat) :
    ∀ c ∈ ("rule-" ++ toString n).toList, isNameChar c = true := by
  have hfixed : "rule-".toList.all isNameChar = true := by decide
  intro c hc
  rw [String.toList_append, List.mem_append] at hc
  rcases hc with hc | hc
  · exact List.all_eq_true.1 hfixed c hc
  · have hdigit : c.isDigit = true := by
      rw [show (toString n).toList = Nat.toDigits 10 n from Nat.toList_repr] at hc
      exact Nat.isDigit_of_mem_toDigits (by decide) (by decide) hc
    have hascii : c.toNat < 128 := by
      have hd := hdigit
      simp only [Char.isDigit, Bool.and_eq_true, decide_eq_true_eq] at hd
      have h9 : c.toNat ≤ 57 := hd.2
      omega
    simp [isNameChar, Text.isWord, hascii, Char.isAlphanum, hdigit]

theorem printable_nameFrom {n : Nat} (h : ∀ r ∈ rs, r.Printable) :
    ∀ r ∈ nameFrom n rs, r.Printable := by
  induction rs generalizing n with
  | nil => exact List.forall_mem_nil _
  | cons r rs ih =>
    obtain ⟨hr, hrs⟩ := List.forall_mem_cons.1 h
    refine List.forall_mem_cons.2 ⟨?_, ih hrs⟩
    split
    · exact ⟨⟨⟨hr.lhs, hr.rhs, hr.lhs_arrow, hr.rhs_ne⟩, isNameChar_numbered n,
        hr.description⟩, hr.one_line, hr.tags⟩
    · exact hr

/-! ## Lines and files -/

theorem groupInForce_of_line {name : String} (h : ListLine.ofString line = .group name)
    (hb : '\n' ∉ line.toList) : GroupInForce name := by
  rw [ListLine.ofString] at h
  split at h
  · have hname := ListLine.group.inj h
    by_cases hne : name = ""
    · exact .inl hne
    · refine .inr ⟨hne, ?_, ?_⟩ <;> rw [← hname, String.toList_ofList]
      · exact Text.trimmed_strip _
      · intro hmem
        have hin := List.mem_of_mem_drop (List.mem_of_mem_dropLast
          ((Text.strip_isInfix _).subset hmem))
        exact hb ((Text.strip_isInfix _).subset hin)
  · split at h <;> cases h

theorem printable_of_loadInclude {path : Path}
    (hload : ∀ {path included rs included'}, load path included = .ok (rs, included') →
      ∀ r ∈ rs, r.Printable)
    (h : loadInclude fs load path included = .ok (rs, included')) :
    ∀ r ∈ rs, r.Printable := by
  rw [loadInclude] at h
  split at h
  · cases h
  · split at h
    · cases h
    · split at h
      · cases h
      · exact hload h
      · cases h

/-- The rules of lines are printable if those of the files that they include are. -/
theorem printable_of_loadLines
    (hload : ∀ {path included rs included'}, load path included = .ok (rs, included') →
      ∀ r ∈ rs, r.Printable)
    (hlines : ∀ line ∈ lines, '\n' ∉ line.toList) (hg : GroupInForce group)
    (h : loadLines fs base load lines group included = .ok (rs, included')) :
    ∀ r ∈ rs, r.Printable := by
  induction lines generalizing group included rs with
  | nil =>
    cases h
    exact List.forall_mem_nil _
  | cons line lines ih =>
    obtain ⟨hline, hrest⟩ := List.forall_mem_cons.1 hlines
    rw [loadLines] at h
    split at h
    · next name hkind => exact ih hrest (groupInForce_of_line hkind hline) h
    · next path hkind =>
      obtain ⟨⟨new, included₁⟩, hnew, h⟩ := exists_of_bind_eq_ok h
      obtain ⟨⟨rest, included₂⟩, hrs, h⟩ := exists_of_bind_eq_ok h
      cases h
      have hprint := printable_of_loadInclude hload hnew
      refine List.forall_mem_append.2 ⟨?_, ih hrest hg hrs⟩
      intro _ hmem
      obtain ⟨r, hr, rfl⟩ := List.mem_map.1 hmem
      exact (hprint r hr).inGroup hg
    · obtain ⟨new, hnew, h⟩ := exists_of_bind_eq_ok h
      obtain ⟨⟨rest, included₁⟩, hrs, h⟩ := exists_of_bind_eq_ok h
      cases h
      refine List.forall_mem_append.2 ⟨?_, ih hrest hg hrs⟩
      intro r hr
      cases new with
      | none => cases hr
      | some new =>
        obtain rfl : r = Rule.inGroup group new := by simpa using hr
        exact (printable_of_ofLine (eq_ok_of_mapError hnew) hline).inGroup hg

/-- What stands between line breaks holds none. -/
theorem not_break_of_mem_splitOn {cs l : List Char} (h : l ∈ cs.splitOn '\n') : '\n' ∉ l := by
  induction cs generalizing l with
  | nil => simp_all [List.splitOn]
  | cons c cs ih =>
    rw [List.splitOn, List.splitOnP_cons_eq_if_modifyHead] at h
    obtain ⟨first, others, hsplit⟩ := List.exists_cons_of_ne_nil
      (List.splitOnP_ne_nil (· == '\n') cs)
    rw [List.splitOn, hsplit] at ih
    rw [hsplit] at h
    split at h
    · rcases List.mem_cons.1 h with rfl | h
      · exact List.not_mem_nil
      · exact ih h
    · next hc =>
      rcases List.mem_cons.1 h with rfl | h
      · have hfirst := ih List.mem_cons_self
        have hne : '\n' ≠ c := fun he => hc (by rw [← he]; rfl)
        simp [hne, hfirst]
      · exact ih (List.mem_cons_of_mem _ h)

theorem not_break_of_mem_linesOf {text : String} (h : line ∈ linesOf text) :
    '\n' ∉ line.toList := by
  obtain ⟨l, hl, rfl⟩ := List.mem_map.1 h
  rw [String.toList_ofList]
  exact not_break_of_mem_splitOn hl

theorem printable_of_loadTextWith {text : String}
    (hload : ∀ {path included rs included'}, load path included = .ok (rs, included') →
      ∀ r ∈ rs, r.Printable)
    (h : loadTextWith fs load base text included = .ok (rs, included')) :
    ∀ r ∈ rs, r.Printable ∧ r.name ≠ "" := by
  obtain ⟨⟨new, included₁⟩, hnew, h⟩ := exists_of_bind_eq_ok h
  cases h
  have hprint := printable_of_loadLines hload (fun _ => not_break_of_mem_linesOf) (.inl rfl) hnew
  exact fun r hr => ⟨printable_nameFrom hprint r hr, name_ne_of_mem_nameFrom hr⟩

theorem printable_of_loadFileWithin {depth : Nat} {path : Path}
    (h : loadFileWithin fs depth path included = .ok (rs, included')) :
    ∀ r ∈ rs, r.Printable ∧ r.name ≠ "" := by
  induction depth generalizing path included rs included' with
  | zero => cases h
  | succ depth ih =>
    obtain ⟨text, -, h⟩ := exists_of_bind_eq_ok h
    exact printable_of_loadTextWith (fun h r hr => (ih h r hr).1) h

/-! ## The built-in rules -/

/-- The patterns that the built-in rules are made of. -/
def IsPlain : Pattern → Bool
  | .hole x => x ∈ ["x", "y", "z"]
  | .leaf (.const _) => true
  | .leaf (.var _) => false
  | .unary _ p => IsPlain p
  | .binary _ p q => IsPlain p && IsPlain q

theorem readable_of_isPlain {p : Pattern} (h : IsPlain p = true) : p.Readable := by
  have hnames : ∀ x ∈ ["x", "y", "z"], Sexpr.IsWord x.toList := by decide
  induction p with
  | hole x => exact hnames x (by simpa [IsPlain] using h)
  | leaf l =>
    cases l with
    | const c => exact Leaf.readable_const c
    | var x => cases h
  | unary op p ih => exact ih h
  | binary op p q ihp ihq =>
    rw [IsPlain, Bool.and_eq_true] at h
    exact ⟨ihp h.1, ihq h.2⟩

/-- The built-in rules are printable. -/
theorem printable_of_mem_defaults (h : r ∈ defaults) : r.Printable ∧ r.name ≠ "" := by
  have hsides : ∀ r ∈ defaults, IsPlain r.lhs = true ∧ IsPlain r.rhs = true ∧
      ∀ w ∈ (r.lhs.toSexpr Pattern.matchSigil).atoms, ¬ arrow <:+: w.toList := by decide +kernel
  have hheads : ∀ r ∈ defaults, r.name ≠ "" ∧ r.name.toList.all isNameChar = true ∧
      r.description = none := by decide +kernel
  have hgroups : ∀ r ∈ defaults,
      r.tags ∈ [["arithmetic"], ["unary"], ["relational"], ["boolean"]] := by decide +kernel
  have hbrackets : ∀ g ∈ ["arithmetic", "unary", "relational", "boolean"], Bracketable g := by
    have hchars : ∀ g ∈ ["arithmetic", "unary", "relational", "boolean"],
        g ≠ "" ∧ Text.Trimmed g.toList ∧ '\n' ∉ g.toList := by decide
    intro g hg
    obtain ⟨hne, htrim, hbreak⟩ := hchars g hg
    exact ⟨hne, htrim, hbreak⟩
  obtain ⟨hl, hr, harrow⟩ := hsides r h
  obtain ⟨hne, hname, hdesc⟩ := hheads r h
  obtain ⟨g, hg, htags⟩ : ∃ g ∈ ["arithmetic", "unary", "relational", "boolean"], r.tags = [g] := by
    simpa using hgroups r h
  refine ⟨⟨⟨⟨readable_of_isPlain hl, readable_of_isPlain hr, harrow, fun he => ?_⟩,
    List.all_eq_true.1 hname, ?_⟩, ?_, .inr ⟨g, htags, hbrackets g hg⟩⟩, hne⟩
  · rw [he] at hr
    cases hr
  · simp [hdesc]
  · simp [hdesc]

/-! ## Lists that were loaded -/

/-- The rules of a text, or those that a command works with. -/
inductive Listed (rs : List Rule) : Prop
  | text (fs : FileSet) (source : String) : loadText fs source = .ok rs → Listed rs
  | command (fs : FileSet) (s : CommandLine.Settings) : CommandLine.loadRules fs s = .ok rs →
      Listed rs

theorem exists_of_mem_mapM {ε α β : Type} {f : α → Except ε β} {xs : List α} {ys : List β} {y : β}
    (h : xs.mapM f = .ok ys) (hy : y ∈ ys) : ∃ x ∈ xs, f x = .ok y := by
  induction xs generalizing ys with
  | nil =>
    cases h
    cases hy
  | cons x xs ih =>
    rw [List.mapM_cons] at h
    obtain ⟨z, hz, h⟩ := exists_of_bind_eq_ok h
    obtain ⟨zs, hzs, h⟩ := exists_of_bind_eq_ok h
    cases h
    rcases List.mem_cons.1 hy with rfl | hy
    · exact ⟨x, List.mem_cons_self, hz⟩
    · obtain ⟨w, hw, hf⟩ := ih hzs hy
      exact ⟨w, List.mem_cons_of_mem _ hw, hf⟩

theorem exists_of_map_eq_ok {ε α β : Type} {x : Except ε α} {f : α → β} {b : β}
    (h : x.map f = .ok b) : ∃ a, x = .ok a ∧ f a = b := by
  cases x with
  | error e => cases h
  | ok a => exact ⟨a, rfl, Except.ok.inj h⟩

/-- Every rule of a loaded list is printable and has a name. -/
theorem Listed.printable (h : Listed rs) : ∀ r ∈ rs, r.Printable ∧ r.name ≠ "" := by
  cases h with
  | text fs source h =>
    obtain ⟨⟨rs, included⟩, hload, rfl⟩ := exists_of_map_eq_ok h
    exact printable_of_loadTextWith (fun h r hr => (printable_of_loadFileWithin h r hr).1) hload
  | command fs s h =>
    obtain ⟨groups, -, h⟩ := exists_of_bind_eq_ok h
    obtain ⟨loaded, hloaded, h⟩ := exists_of_bind_eq_ok h
    cases h
    intro r hr
    rcases List.mem_append.1 hr with hr | hr
    · refine printable_of_mem_defaults ?_
      cases groups with
      | none => exact hr
      | some names => exact (List.mem_filter.1 hr).1
    · obtain ⟨rs, hrs, hr⟩ := List.mem_flatten.1 hr
      obtain ⟨file, -, hfile⟩ := exists_of_mem_mapM hloaded hrs
      obtain ⟨path, -, hfile⟩ := exists_of_bind_eq_ok hfile
      obtain ⟨⟨rs, included⟩, hload, rfl⟩ := exists_of_map_eq_ok (eq_ok_of_mapError hfile)
      exact printable_of_loadFileWithin hload r hr

end EqSat.Rule
