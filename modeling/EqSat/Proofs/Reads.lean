import EqSat.Proofs.Loading

/-!
# Files that are read

Loading is described without a bound on its depth, as derivations: what comes of the lines of a file
is put together from what comes of the files that they include, and every derivation notes the files
that are read, in order.  A file is noted as included before it is read, and is not included again,
so the files read below the first one are different, whatever the files hold and however they
include each other.  Only the first file is not noted; it may be read once more, when some file
below includes it.  As there are only so many files, there is a derivation for every file, and the
depth at which loading gives up is never reached.

    Loads.reads             which files are read
    exists_loads            every file has a derivation that gives what loading gives
    loadFile_reads          how often files are read
-/

namespace EqSat.FileSet

open Rule

variable {fs : FileSet} {p q base : Path} {text path group line : String} {lines : List String}
  {l : Location} {included log : List Location} {depth : Nat} {res : Except LoadError Loaded}

/-- Why a file is not included, if it is not, when others have been. -/
def refusal? (fs : FileSet) (included : List Location) (q : Path) : Option LoadError :=
  if q.isUsable = false then some (.file .unusable)
  else if q.resolve ∈ included then some (.rule (.circularInclude q.text))
  else match fs.contains q with
    | .error e => some (.file e)
    | .ok false => some (.missingInclude q.text)
    | .ok true => none

theorem loadInclude_eq (load : Path → List Location → Except LoadError Loaded) (q : Path)
    (included : List Location) :
    loadInclude fs load q included = match fs.refusal? included q with
      | some e => .error e
      | none => load q (q.resolve :: included) := by
  rw [loadInclude, refusal?]
  cases q.isUsable with
  | false => rfl
  | true =>
    by_cases hmem : q.resolve ∈ included
    · simp [hmem]
    · rcases fs.contains q with e | _ | _ <;> simp [hmem]

theorem notMem_of_refusal (h : fs.refusal? included q = none) : q.resolve ∉ included := by
  intro hmem
  rw [refusal?, if_pos hmem] at h
  split at h <;> cases h

/-- What is to be loaded: a file, or lines of one in a group. -/
inductive Task where
  | file (p : Path)
  | lines (base : Path) (lines : List String) (group : String)

/-- Rules put before those that are loaded. -/
def putBefore (new : List Rule) : Except LoadError Loaded → Except LoadError Loaded :=
  Except.map fun loaded => (new ++ loaded.1, loaded.2)

theorem bind_eq_putBefore (new : List Rule) (res : Except LoadError Loaded) :
    (do
      let (rest, included) ← res
      .ok (new ++ rest, included)) = putBefore new res := by
  cases res <;> rfl

/-- How a task is loaded when files have been included: the files that are read, in order, and what
comes of it.  A file counts as read also if reading it fails. -/
inductive Loads (fs : FileSet) :
    Task → List Location → List Location → Except LoadError Loaded → Prop
  | unreadable {p : Path} {included : List Location} {e : FileError} : fs.read p = .error e →
      Loads fs (.file p) included [p.resolve] (.error (.file e))
  | read {p : Path} {text : String} {included log : List Location}
      {res : Except LoadError Loaded} : fs.read p = .ok text →
      Loads fs (.lines p.parent (linesOf text) "") included log res →
      Loads fs (.file p) included (p.resolve :: log)
        (res.map fun loaded => (nameFrom 1 loaded.1, loaded.2))
  | done {base : Path} {group : String} {included : List Location} :
      Loads fs (.lines base [] group) included [] (.ok ([], included))
  | group {base : Path} {line name group : String} {lines : List String}
      {included log : List Location} {res : Except LoadError Loaded} :
      ListLine.ofString line = .group name →
      Loads fs (.lines base lines name) included log res →
      Loads fs (.lines base (line :: lines) group) included log res
  | malformed {base : Path} {line group : String} {lines : List String} {included : List Location}
      {e : RuleError} : ListLine.ofString line = .other → ofLine line = .error e →
      Loads fs (.lines base (line :: lines) group) included [] (.error (.rule e))
  | rule {base : Path} {line group : String} {lines : List String} {included log : List Location}
      {new : Option Rule} {res : Except LoadError Loaded} : ListLine.ofString line = .other →
      ofLine line = .ok new → Loads fs (.lines base lines group) included log res →
      Loads fs (.lines base (line :: lines) group) included log
        (putBefore (new.map (inGroup group)).toList res)
  | refused {base : Path} {line path group : String} {lines : List String}
      {included : List Location} {e : LoadError} : ListLine.ofString line = .load path →
      fs.refusal? included (base.join (Path.ofString path)) = some e →
      Loads fs (.lines base (line :: lines) group) included [] (.error e)
  | broken {base q : Path} {line path group : String} {lines : List String}
      {included log : List Location} {e : LoadError} : ListLine.ofString line = .load path →
      q = base.join (Path.ofString path) → fs.refusal? included q = none →
      Loads fs (.file q) (q.resolve :: included) log (.error e) →
      Loads fs (.lines base (line :: lines) group) included log (.error e)
  | load {base q : Path} {line path group : String} {lines : List String}
      {included included' log log' : List Location} {new : List Rule}
      {res : Except LoadError Loaded} : ListLine.ofString line = .load path →
      q = base.join (Path.ofString path) → fs.refusal? included q = none →
      Loads fs (.file q) (q.resolve :: included) log (.ok (new, included')) →
      Loads fs (.lines base lines group) included' log' res →
      Loads fs (.lines base (line :: lines) group) included (log ++ log')
        (putBefore (new.map (inGroup group)) res)

/-! ## Which files are read -/

/-- The files read are different ones that have not been included yet.  Where nothing fails they are
files, and count as included. -/
structure Below (fs : FileSet) (included log : List Location) (res : Except LoadError Loaded) :
    Prop where
  nodup : log.Nodup
  fresh : ∀ l ∈ log, l ∉ included
  included_eq : ∀ rs included', res = .ok (rs, included') → included' = log.reverse ++ included
  files : ∀ loaded, res = .ok loaded → ∀ l ∈ log, (fs.file? l).isSome = true

theorem below_error (fs : FileSet) (included : List Location) (e : LoadError) :
    fs.Below included [] (.error e) :=
  ⟨List.nodup_nil, List.forall_mem_nil _, nofun, nofun⟩

/-- What is done to the rules does not matter. -/
theorem Below.map (h : fs.Below included log res) (f : List Rule → List Rule) :
    fs.Below included log (res.map fun loaded => (f loaded.1, loaded.2)) := by
  cases res with
  | error e => exact ⟨h.nodup, h.fresh, nofun, nofun⟩
  | ok loaded =>
    refine ⟨h.nodup, h.fresh, fun rs included' heq => ?_, fun _ _ => h.files _ rfl⟩
    cases heq
    exact h.included_eq _ _ rfl

/-- A file is read, and what it includes, and then what else the lines include. -/
theorem Below.append {included' below log : List Location} {new : List Rule}
    (h : fs.Below (l :: included) below (.ok (new, included'))) (hl : l ∉ included)
    (hfile : (fs.file? l).isSome = true) (h' : fs.Below included' log res) :
    fs.Below included ((l :: below) ++ log) res := by
  obtain rfl := h.included_eq _ _ rfl
  have hfresh : ∀ m ∈ log, m ∉ below ∧ m ≠ l ∧ m ∉ included := by
    intro m hm
    have hnot := h'.fresh m hm
    simp only [List.mem_append, List.mem_reverse, List.mem_cons, not_or] at hnot
    exact hnot
  constructor
  · have hfirst : (l :: below).Nodup :=
      List.nodup_cons.2 ⟨fun hm => h.fresh l hm List.mem_cons_self, h.nodup⟩
    refine List.nodup_append.2 ⟨hfirst, h'.nodup, fun a ha b hb hab => ?_⟩
    obtain ⟨hbelow, hne, -⟩ := hfresh b hb
    rcases List.mem_cons.1 ha with rfl | ha
    · exact hne hab.symm
    · exact hbelow (hab ▸ ha)
  · refine List.forall_mem_append.2 ⟨List.forall_mem_cons.2 ⟨hl, fun m hm hin => ?_⟩, ?_⟩
    · exact h.fresh m hm (List.mem_cons_of_mem _ hin)
    · exact fun m hm => (hfresh m hm).2.2
  · intro rs included' heq
    rw [h'.included_eq rs included' heq]
    simp
  · intro loaded heq
    exact List.forall_mem_append.2
      ⟨List.forall_mem_cons.2 ⟨hfile, h.files _ rfl⟩, h'.files loaded heq⟩

/-- A file that is loaded is read first. -/
def Task.Reads (fs : FileSet) (included log : List Location) (res : Except LoadError Loaded) :
    Task → Prop
  | .file p => ∃ below, log = p.resolve :: below ∧ fs.Below included below res ∧
      ∀ loaded, res = .ok loaded → (fs.file? p.resolve).isSome = true
  | .lines _ _ _ => fs.Below included log res

/-- **Which files are read**, by induction on the derivation. -/
theorem Loads.reads {task : Task} (h : fs.Loads task included log res) :
    task.Reads fs included log res := by
  induction h with
  | unreadable _ => exact ⟨[], rfl, below_error fs _ _, nofun⟩
  | read hread _ ih =>
    exact ⟨_, rfl, Below.map ih (nameFrom 1), fun _ _ => isSome_of_read hread⟩
  | done => exact ⟨List.nodup_nil, List.forall_mem_nil _, by simp, by simp⟩
  | group _ _ ih => exact ih
  | malformed _ _ => exact below_error fs _ _
  | rule _ _ _ ih => exact Below.map ih _
  | refused _ _ => exact below_error fs _ _
  | @broken _ q _ _ _ _ included _ _ _ _ hadmitted _ ih =>
    obtain ⟨below, rfl, h, -⟩ := ih
    have hnodup := List.nodup_cons.2 ⟨fun hm => h.fresh _ hm List.mem_cons_self, h.nodup⟩
    refine ⟨hnodup, ?_, nofun, nofun⟩
    refine List.forall_mem_cons.2 ⟨notMem_of_refusal hadmitted, fun m hm hin => ?_⟩
    exact h.fresh m hm (List.mem_cons_of_mem _ hin)
  | load _ _ hadmitted _ _ ih ih' =>
    obtain ⟨below, rfl, h, hfile⟩ := ih
    exact Below.map (h.append (notMem_of_refusal hadmitted) (hfile _ rfl) ih') _

/-- There is only one way to load. -/
theorem Loads.unique {task : Task} (h : fs.Loads task included log res)
    {log' : List Location} {res' : Except LoadError Loaded}
    (h' : fs.Loads task included log' res') : log' = log ∧ res' = res := by
  induction h generalizing log' res' with
  | unreadable hread =>
    cases h' with
    | unreadable hread' => simp_all
    | read hread' _ => simp_all
  | read hread _ ih =>
    cases h' with
    | unreadable hread' => simp_all
    | read hread' h' =>
      rw [hread] at hread'
      cases hread'
      obtain ⟨rfl, rfl⟩ := ih h'
      exact ⟨rfl, rfl⟩
  | done =>
    cases h'
    exact ⟨rfl, rfl⟩
  | group hkind _ ih =>
    cases h' with
    | group hkind' h' =>
      rw [hkind] at hkind'
      cases hkind'
      exact ih h'
    | _ => simp_all
  | malformed hkind hline =>
    cases h' with
    | _ => simp_all
  | rule hkind hline _ ih =>
    cases h' with
    | rule _ hline' h' =>
      rw [hline] at hline'
      cases hline'
      obtain ⟨rfl, rfl⟩ := ih h'
      exact ⟨rfl, rfl⟩
    | _ => simp_all
  | refused hkind hrefused =>
    cases h' with
    | _ => simp_all
  | broken hkind hq hadmitted _ ih =>
    subst hq
    cases h' with
    | broken hkind' hq' _ h' =>
      rw [hkind] at hkind'
      cases hkind'
      subst hq'
      exact ih h'
    | load hkind' hq' _ h' _ =>
      rw [hkind] at hkind'
      cases hkind'
      subst hq'
      cases (ih h').2
    | _ => simp_all
  | load hkind hq hadmitted _ _ ih ih' =>
    subst hq
    cases h' with
    | broken hkind' hq' _ h' =>
      rw [hkind] at hkind'
      cases hkind'
      subst hq'
      cases (ih h').2
    | load hkind' hq' _ h' h'' =>
      rw [hkind] at hkind'
      cases hkind'
      subst hq'
      obtain ⟨rfl, heq⟩ := ih h'
      cases heq
      obtain ⟨rfl, rfl⟩ := ih' h''
      exact ⟨rfl, rfl⟩
    | _ => simp_all

/-! ## Every file can be loaded -/

/-- The files included so far when the lines of a file are loaded, and the depth left for those that
they include. -/
structure Spare (fs : FileSet) (depth : Nat) (included : List Location) : Prop where
  nodup : included.Nodup
  files : ∀ l ∈ included, (fs.file? l).isSome = true
  depth : fs.size < depth + included.length

/-- The same for a file to load, which may not be one. -/
structure SpareFor (fs : FileSet) (depth : Nat) (p : Path) (included : List Location) : Prop where
  nodup : included.Nodup
  files : ∀ l ∈ included, l ≠ p.resolve → (fs.file? l).isSome = true
  depth : fs.size + 1 < depth + included.length

/-- At the start there is depth to spare, and more. -/
theorem spareFor_start (fs : FileSet) (d : Nat) (p : Path) :
    fs.SpareFor (includeDepth fs + d) p [] :=
  ⟨List.nodup_nil, List.forall_mem_nil _, by rw [includeDepth, List.length_nil]; omega⟩

theorem SpareFor.exists_depth (h : fs.SpareFor depth p included) : ∃ d, depth = d + 1 := by
  have hothers : ∀ l ∈ included.erase p.resolve, (fs.file? l).isSome = true := by
    intro l hl
    obtain ⟨hne, hmem⟩ := h.nodup.mem_erase_iff.1 hl
    exact h.files l hmem hne
  have hle := length_le_size (h.nodup.erase _) hothers
  have hlength : included.length ≤ (included.erase p.resolve).length + 1 := by
    rw [List.length_erase]
    split <;> omega
  have hdepth := h.depth
  exact ⟨depth - 1, by omega⟩

theorem SpareFor.ofRead (h : fs.SpareFor (depth + 1) p included) (hread : fs.read p = .ok text) :
    fs.Spare depth included := by
  have hdepth := h.depth
  refine ⟨h.nodup, fun l hl => ?_, by omega⟩
  by_cases heq : l = p.resolve
  · rw [heq]
    exact isSome_of_read hread
  · exact h.files l hl heq

theorem Spare.include (h : fs.Spare depth included) (hq : q.resolve ∉ included) :
    fs.SpareFor depth q (q.resolve :: included) := by
  have hdepth := h.depth
  refine ⟨List.nodup_cons.2 ⟨hq, h.nodup⟩, fun l hl hne => ?_, by rw [List.length_cons]; omega⟩
  exact h.files l ((List.mem_cons.1 hl).resolve_left hne)

/-- Where a file has been included, there is as much depth left for the others. -/
theorem Spare.later {included' below : List Location} {new : List Rule}
    (h : fs.Spare depth included) (hl : l ∉ included) (hfile : (fs.file? l).isSome = true)
    (hbelow : fs.Below (l :: included) below (.ok (new, included'))) :
    fs.Spare depth included' := by
  have hdepth := h.depth
  obtain rfl := hbelow.included_eq _ _ rfl
  refine ⟨?_, ?_, by simp only [List.length_append, List.length_cons]; omega⟩
  · refine List.nodup_append.2 ⟨List.nodup_reverse.2 hbelow.nodup,
      List.nodup_cons.2 ⟨hl, h.nodup⟩, fun a ha b hb hab => ?_⟩
    exact hbelow.fresh a (List.mem_reverse.1 ha) (hab ▸ hb)
  · exact List.forall_mem_append.2 ⟨fun m hm => hbelow.files _ rfl m (List.mem_reverse.1 hm),
      List.forall_mem_cons.2 ⟨hfile, h.files⟩⟩

/-- The lines of a file, by induction on the lines, for a way to load that has derivations. -/
theorem exists_loads_lines (base : Path) (lines : List String) (group : String)
    {load : Path → List Location → Except LoadError Loaded}
    (hload : ∀ q included, fs.SpareFor depth q included →
      ∃ log, fs.Loads (.file q) included log (load q included))
    (h : fs.Spare depth included) :
    ∃ log, fs.Loads (.lines base lines group) included log
      (loadLines fs base load lines group included) := by
  induction lines generalizing group included with
  | nil => exact ⟨[], .done⟩
  | cons line lines ih =>
    rw [loadLines]
    cases hkind : ListLine.ofString line with
    | group name =>
      obtain ⟨log, hlog⟩ := ih name h
      exact ⟨log, .group hkind hlog⟩
    | other =>
      dsimp only
      cases hline : ofLine line with
      | error e => exact ⟨[], .malformed hkind hline⟩
      | ok new =>
        obtain ⟨log, hlog⟩ := ih group h
        refine ⟨log, ?_⟩
        change fs.Loads _ _ _ (do
          let (rest, included) ← loadLines fs base load lines group included
          .ok ((new.map (inGroup group)).toList ++ rest, included))
        rw [bind_eq_putBefore]
        exact .rule hkind hline hlog
    | load path =>
      dsimp only
      generalize hq : base.join (Path.ofString path) = q
      rw [loadInclude_eq]
      cases hrefusal : fs.refusal? included q with
      | some e => exact ⟨[], .refused hkind (hq ▸ hrefusal)⟩
      | none =>
        have hnew := notMem_of_refusal hrefusal
        obtain ⟨log, hlog⟩ := hload q _ (h.include hnew)
        dsimp only
        cases hloaded : load q (q.resolve :: included) with
        | error e =>
          rw [hloaded] at hlog
          exact ⟨log, .broken hkind hq.symm hrefusal hlog⟩
        | ok loaded =>
          obtain ⟨new, included'⟩ := loaded
          rw [hloaded] at hlog
          obtain ⟨below, rfl, hbelow, hfile⟩ := hlog.reads
          obtain ⟨log', hlog'⟩ := ih group (h.later hnew (hfile _ rfl) hbelow)
          refine ⟨(q.resolve :: below) ++ log', ?_⟩
          change fs.Loads _ _ _ (do
            let (rest, included) ← loadLines fs base load lines group included'
            .ok (new.map (inGroup group) ++ rest, included))
          rw [bind_eq_putBefore]
          exact .load hkind hq.symm hrefusal hlog hlog'

/-- **Every file can be loaded**: with depth to spare, loading is what a derivation gives. -/
theorem exists_loads (h : fs.SpareFor depth p included) :
    ∃ log, fs.Loads (.file p) included log (loadFileWithin fs depth p included) := by
  induction depth generalizing p included with
  | zero =>
    obtain ⟨d, hd⟩ := h.exists_depth
    cases hd
  | succ depth ih =>
    rw [loadFileWithin]
    cases hread : fs.read p with
    | error e => exact ⟨_, .unreadable hread⟩
    | ok text =>
      obtain ⟨log, hlog⟩ := exists_loads_lines p.parent (linesOf text) ""
        (fun q included hq => ih hq) (h.ofRead hread)
      refine ⟨p.resolve :: log, ?_⟩
      have hfile := Loads.read hread hlog
      change fs.Loads _ _ _ (loadTextWith fs (loadFileWithin fs depth) p.parent text included)
      rw [loadTextWith]
      cases hres : loadLines fs p.parent (loadFileWithin fs depth) (linesOf text) "" included <;>
        rw [hres] at hfile <;> exact hfile

/-- **How often files are read.**  Loading a file ends, whatever the files hold: there is exactly
one derivation, it gives what loading gives, and more depth gives the same.  The file is read at
most twice on the way, and every other file at most once. -/
theorem loadFile_reads (fs : FileSet) (path : String) :
    ∃ log res, (∀ log' res', fs.Loads (.file (Path.ofString path)) [] log' res' ↔
        log' = log ∧ res' = res) ∧
      loadFile fs path = res.map Prod.fst ∧
      (∀ d, loadFileWithin fs (includeDepth fs + d) (Path.ofString path) [] = res) ∧
      ∀ l, log.count l ≤ if l = (Path.ofString path).resolve then 2 else 1 := by
  obtain ⟨log, hlog⟩ := exists_loads (spareFor_start fs 0 (Path.ofString path))
  refine ⟨log, _, fun log' res' => ⟨hlog.unique, ?_⟩, rfl, fun d => ?_, fun l => ?_⟩
  · rintro ⟨rfl, rfl⟩
    exact hlog
  · obtain ⟨log', hlog'⟩ := exists_loads (spareFor_start fs d (Path.ofString path))
    exact (hlog.unique hlog').2
  · obtain ⟨below, rfl, hbelow, -⟩ := hlog.reads
    have hone := List.nodup_iff_count_le_one.1 hbelow.nodup l
    rw [List.count_cons]
    split <;> split <;> simp_all

end EqSat.FileSet
