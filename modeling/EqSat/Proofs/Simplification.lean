import EqSat.Proofs.Extraction
import EqSat.Proofs.Runs

/-!
# Simplification

A term whose nodes have values is simplified to a term of nodes that have values, with the same
value at the root, if the rules keep the graph in order.  Otherwise two constants of one value
clash.

    simplify_spec          the term that is found spells the class of the seed
    Simplified.value_root  its root has the value of the seed's root
-/

namespace EqSat

open EGraph

variable {D : Type} {I : Meaning D} {start : EGraph} {o₀ : Origin D} {rules : List Rule}
  {P : EGraph → Origin D → Prop}

/-- A simplification finds what is extracted after the saturation. -/
theorem simplify_of_saturate {limits : Limits} {t : Term} {root : ClassId} {r : Runner}
    {e : Extracted Nat} (hsat : saturate rules limits t = (.ok root, r))
    (he : r.egraph.extract .size root = .ok e) : t.simplify rules limits = .ok e.term := by
  unfold Term.simplify Term.simplifyWith
  rw [hsat]
  dsimp only
  rw [he]

/-- It fails where the saturation does. -/
theorem simplify_of_saturate_error {limits : Limits} {t : Term} {e : SimplifyError} {r : Runner}
    (hsat : saturate rules limits t = (.error e, r)) : t.simplify rules limits = .error e := by
  unfold Term.simplify Term.simplifyWith
  rw [hsat]

/-- A simplification ends with a term that spells the class `id` in a graph in order. -/
structure Simplified (I : Meaning D) (P : EGraph → Origin D → Prop) (start : EGraph) (o₀ : Origin D)
    (id : ClassId) (best : Term) (g : EGraph) (o : Origin D) (cls : Nat → ClassId) : Prop where
  valid : Valid I g o
  holds : P g o
  since : Extends (fun _ => True) start o₀ g o
  spells : g.Spells best cls id

/-- What is extracted after a saturation spells the class of the seed. -/
theorem exists_simplified {limits : Limits} {t : Term} {id : ClassId} {r : Runner} {o : Origin D}
    (hsat : saturate rules limits t = (.ok (r.egraph.find id), r)) (ht : Tidy r.egraph)
    (hv : Valid I r.egraph o) (hP : P r.egraph o)
    (hsince : Extends (fun _ => True) start o₀ r.egraph o) (hid : id < start.size) :
    ∃ best g o cls, t.simplify rules limits = .ok best ∧
      Simplified I P start o₀ id best g o cls := by
  have hlt : id < r.egraph.size := Nat.lt_of_lt_of_le hid hsince.size_le
  obtain ⟨e, cls, -, hextract, hspells, -⟩ := extract_spec hv.grounded ht.clean
    CostFunction.above_size CostFunction.monotone_size (find_lt hv.shape hlt)
  refine ⟨e.term, r.egraph, o, cls, simplify_of_saturate hsat hextract, hv, hP, hsince, ?_⟩
  exact { hspells with root := by rw [hspells.root, find_find hv.shape] }

/-- **Simplification** ends with a term of the seed's class, or with a clash of constants. -/
theorem simplify_spec (h : Sets I rules P start o₀) {t : Term} {id : ClassId}
    (hadd : addTerm t (.empty .constantFolding) = .ok (some id) start) (hid : id < start.size)
    (limits : Limits) :
    (∃ e, t.simplify rules limits = .error (.conflict e) ∧ Clash I e) ∨
    ∃ best g o cls, t.simplify rules limits = .ok best ∧
      Simplified I P start o₀ id best g o cls := by
  obtain ⟨graphs, stop, hist, hhead, hsat⟩ := saturate_spec h hadd limits
  obtain ⟨o, hu⟩ := h.upheld hist hhead
  generalize hs : saturate rules limits t = s at hhead hsat hu
  cases hsat with
  | @failed e r hstop => exact .inl ⟨e, simplify_of_saturate_error hs, hu.stopped e hstop⟩
  | @done r hstop ht =>
    obtain ⟨hvalid, hP⟩ := hu.running hstop
    exact .inr (exists_simplified hs ht hvalid hP hu.since hid)

/-- The value of the seed's root is that of the root of the term found. -/
theorem Simplified.value_root {id : ClassId} {best : Term} {g : EGraph} {o : Origin D}
    {cls : Nat → ClassId} (h : Simplified I P start o₀ id best g o cls) (hid : id < start.size) :
    o.value (cls (best.size - 1)) = o₀.value id := by
  rw [h.spells.root, h.valid.sound.value_find id (Nat.lt_of_lt_of_le hid h.since.size_le),
    h.since.value id hid]

end EqSat
