import EqSat.File

/-!
# Paths that lead to files

A path that can be followed leads where it resolves to.  Where no file is a directory as well, a
path that leads to a file ends in the file's name, so that its parent leads to the directory that
holds the file.  The paths that a file includes start there, whichever way the file was reached.

    locate_eq                 a path that can be followed leads where it resolves to
    resolve_parent_of_read    the parent of a file's path leads to the directory of the file
-/

namespace EqSat

namespace Location

/-- The directory that holds a file. -/
def parent (l : Location) : Location := { l with names := l.names.dropLast }

/-- Where a path leads from a directory. -/
def follow (l : Location) (p : Path) : Location :=
  if p.isAbsolute then p.resolve else p.names.foldl step l

end Location

theorem Path.resolve_join_eq (base p : Path) : (base.join p).resolve = base.resolve.follow p := by
  cases h : p.isAbsolute with
  | true => rw [join, if_pos h, Location.follow, if_pos h]
  | false => rw [resolve_join base h, Location.follow, h, if_neg Bool.false_ne_true]

namespace FileSet

variable {fs : FileSet} {l m : Location} {p : Path} {path text : String} {names : List String}

/-- No file is a directory as well. -/
def Consistent (fs : FileSet) : Prop := ∀ l text, fs.file? l = some text → fs.isDirectory l = false

/-- The text of a file, with its line ends unified. -/
def text? (fs : FileSet) (l : Location) : Option String :=
  (fs.file? l).map fun raw => String.ofList (unifyLineEnds raw.toList)

theorem walk_eq (h : fs.walk path l names = .ok m) : m = names.foldl Location.step l := by
  induction names generalizing l with
  | nil => exact (Except.ok.inj h).symm
  | cons name names ih =>
    rw [walk] at h
    split at h
    · split at h
      · cases h
      · exact ih h
    · split at h <;> cases h

/-- Each name is looked up in a directory, also the last one. -/
theorem isDirectory_of_walk {name : String} (h : fs.walk path l (names ++ [name]) = .ok m) :
    fs.isDirectory (names.foldl Location.step l) = true := by
  induction names generalizing l with
  | nil =>
    rw [List.nil_append, walk] at h
    split at h
    · next hdir => exact hdir
    · split at h <;> cases h
  | cons first names ih =>
    rw [List.cons_append, walk] at h
    split at h
    · split at h
      · cases h
      · exact ih h
    · split at h <;> cases h

/-- What stands above a directory is one. -/
theorem isDirectory_up (h : fs.isDirectory l = true) : fs.isDirectory (l.step "..") = true := by
  rw [Location.step, if_pos rfl]
  split
  · next hempty =>
    split <;> simp [isDirectory, hempty]
  · next hne =>
    rw [isDirectory, Bool.or_eq_true, List.any_eq_true] at h ⊢
    obtain ⟨⟨m, text⟩, hmem, hm⟩ := h.resolve_left hne
    refine .inr ⟨⟨m, text⟩, hmem, ?_⟩
    simp only [Bool.and_eq_true, beq_iff_eq, bne_iff_ne, List.isPrefixOf_iff_prefix] at hm ⊢
    obtain ⟨⟨hplace, hpre⟩, -⟩ := hm
    refine ⟨⟨hplace, (List.dropLast_prefix l.names).trans hpre⟩, fun heq => ?_⟩
    have hlen := hpre.length_le
    rw [← heq, List.length_dropLast] at hlen
    have hpos := List.length_pos_iff.2 (fun h => hne (List.isEmpty_iff.2 h))
    omega

theorem locate_eq (h : fs.locate p = .ok l) : l = p.resolve := by
  rw [locate] at h
  split at h
  · cases h
  · split at h
    · cases h
    · exact walk_eq h

theorem read_eq_ok (h : fs.read p = .ok text) :
    fs.locate p = .ok p.resolve ∧ fs.text? p.resolve = some text := by
  rw [read] at h
  cases hl : fs.locate p with
  | error e =>
    rw [hl] at h
    cases h
  | ok l =>
    obtain rfl := locate_eq hl
    rw [hl] at h
    refine ⟨rfl, ?_⟩
    simp only [bind, Except.bind] at h
    rw [text?]
    cases hfile : fs.file? p.resolve with
    | none =>
      rw [hfile] at h
      cases h
    | some raw =>
      rw [hfile] at h
      exact congrArg some (Except.ok.inj h)

/-- What can be read is there. -/
theorem contains_of_read (h : fs.read p = .ok text) :
    p.isUsable = true ∧ fs.contains p = .ok true := by
  obtain ⟨hl, htext⟩ := read_eq_ok h
  obtain ⟨raw, hraw, -⟩ := Option.map_eq_some_iff.1 htext
  constructor
  · cases husable : p.isUsable with
    | true => rfl
    | false =>
      rw [locate_of_not_isUsable fs husable] at hl
      cases hl
  · rw [contains, hl]
    dsimp only
    rw [hraw]
    rfl

/-- The path of a file ends in a name of its own. -/
theorem exists_name_of_read (hfs : fs.Consistent) (h : fs.read p = .ok text) :
    ∃ names name, p.names = names ++ [name] ∧ name ≠ ".." := by
  obtain ⟨hl, htext⟩ := read_eq_ok h
  obtain ⟨raw, hraw, -⟩ := Option.map_eq_some_iff.1 htext
  have hfile := hfs _ raw hraw
  rcases List.eq_nil_or_concat p.names with hnil | ⟨names, name, hnames⟩
  · have hempty : p.resolve = Location.start p := by rw [Path.resolve, hnil, List.foldl_nil]
    rw [hempty] at hfile
    cases hfile
  · refine ⟨names, name, by rw [hnames, List.concat_eq_append], fun hup => ?_⟩
    rw [List.concat_eq_append, hup] at hnames
    have hwalk : fs.walk p.text (Location.start p) p.names = .ok p.resolve := by
      rw [locate] at hl
      split at hl
      · cases hl
      · split at hl
        · cases hl
        · exact hl
    rw [hnames] at hwalk
    have hdir := isDirectory_up (isDirectory_of_walk hwalk)
    have hstep : (names.foldl Location.step (Location.start p)).step ".." = p.resolve := by
      rw [Path.resolve, hnames, List.foldl_append, List.foldl_cons, List.foldl_nil]
    rw [hstep, hfile] at hdir
    cases hdir

/-- The parent of a file's path leads to the directory of the file. -/
theorem resolve_parent_of_read (hfs : fs.Consistent) (h : fs.read p = .ok text) :
    p.parent.resolve = p.resolve.parent := by
  obtain ⟨names, name, hnames, hname⟩ := exists_name_of_read hfs h
  rw [Path.resolve, Path.resolve, Path.parent, hnames, List.dropLast_concat, List.foldl_append,
    List.foldl_cons, List.foldl_nil, Location.step, if_neg hname, Location.parent,
    List.dropLast_concat]
  rfl

end FileSet

end EqSat
