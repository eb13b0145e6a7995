import CriteriaQuery.Proofs.Criteria.RoundTrip

/-!
# The shape of criteria that were read

A tree is well shaped when every leaf has an operator that stands on leaves and a value of the
shape that the operator takes. Whatever is well formed is well shaped, and so is whatever the
reader accepts.
-/

namespace CriteriaQuery

namespace Criteria

mutual

/-- Every leaf has a value of the shape that its operator takes. -/
def WellShaped : Criteria → Prop
  | .group _ children => AllWellShaped children
  | .leaf _ op value => op.arity? = some value.arity

def AllWellShaped : List Criteria → Prop
  | [] => True
  | c :: cs => WellShaped c ∧ AllWellShaped cs

end

mutual

/-- A leaf that can be made from its parts has a value of the shape that its operator takes. -/
theorem WellFormed.wellShaped : ∀ {tree : Criteria}, tree.WellFormed → tree.WellShaped
  | .leaf _ _ _, h => by
      obtain ⟨-, harity, -⟩ := wellFormed_leaf_iff.mp h
      rw [WellShaped, harity]
  | .group _ children, h => by
      rw [WellFormed] at h
      rw [WellShaped]
      exact allWellShaped_of_allWellFormed h

theorem allWellShaped_of_allWellFormed : ∀ {trees : List Criteria},
    AllWellFormed trees → AllWellShaped trees
  | [], _ => trivial
  | _ :: _, ⟨htree, hrest⟩ => ⟨htree.wellShaped, allWellShaped_of_allWellFormed hrest⟩

end

/-- What the reader accepts is well shaped. -/
theorem wellShaped_of_read {value : Json} {path : String} {tree : Criteria}
    (h : read value path = .ok tree) : tree.WellShaped :=
  (wellFormed_of_read h).wellShaped

end Criteria

end CriteriaQuery
