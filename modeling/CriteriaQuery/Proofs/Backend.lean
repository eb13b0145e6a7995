import CriteriaQuery.Compile.Query
import CriteriaQuery.Proofs.Outcome
import Mathlib.Data.List.Forall2

/-!
# Backends in step

Compilation asks a backend for its operations only, in an order that does not depend on the
backend. Hence two backends whose operations keep a relation between their predicates compile
every criteria tree to related predicates, or fail on it with the same error.
-/

namespace CriteriaQuery

variable {P O P' O' : Type}

/-- The operations of two backends keep a relation, on the columns that names resolve to. -/
structure Backend.InStep (s : Scope) (R : P → P' → Prop) (b : Backend P O) (b' : Backend P' O') :
    Prop where
  alwaysTrue : R b.alwaysTrue b'.alwaysTrue
  alwaysFalse : R b.alwaysFalse b'.alwaysFalse
  combine : ∀ c parts parts', List.Forall₂ R parts parts' → 2 ≤ parts.length →
    R (b.combine c parts) (b'.combine c parts')
  compare : ∀ field column, s.resolve field = .ok column → ∀ op value,
    R (b.compare column op value) (b'.compare column op value)
  nullTest : ∀ field column, s.resolve field = .ok column → ∀ negated,
    R (b.nullTest column negated) (b'.nullTest column negated)
  membership : ∀ field column, s.resolve field = .ok column → ∀ values negated, values ≠ [] →
    R (b.membership column values negated) (b'.membership column values negated)
  pattern : ∀ field column, s.resolve field = .ok column → ∀ anchor literal,
    R (b.pattern column anchor literal) (b'.pattern column anchor literal)

namespace Scope

variable {s : Scope} {R : P → P' → Prop} {b : Backend P O} {b' : Backend P' O'}

theorem leafPredicate_inStep (h : b.InStep s R b') {field : String} {column : ResolvedColumn}
    (hcolumn : s.resolve field = .ok column) (op : Operator) (value : LeafValue) :
    R (leafPredicate b column op value) (leafPredicate b' column op value) := by
  have hmembership : ∀ negated, R (leafPredicate b column (.membership negated) value)
      (leafPredicate b' column (.membership negated) value) := by
    intro negated
    unfold leafPredicate
    dsimp only
    split
    · cases negated with
      | false => exact h.alwaysFalse
      | true => exact h.alwaysTrue
    · next hne => exact h.membership field column hcolumn _ _ hne
  cases op with
  | connective c => exact h.alwaysFalse
  | comparison c =>
      cases value with
      | one v => exact h.compare field column hcolumn c v
      | absent => exact h.alwaysFalse
      | many vs => exact h.alwaysFalse
  | nullTest negated => exact h.nullTest field column hcolumn negated
  | membership negated => exact hmembership negated
  | pattern anchor =>
      cases value with
      | one v => exact h.pattern field column hcolumn anchor v.bareText
      | absent => exact h.alwaysFalse
      | many vs => exact h.alwaysFalse

theorem groupPredicate_inStep (h : b.InStep s R b') (c : Connector) {parts : List P}
    {parts' : List P'} (hparts : List.Forall₂ R parts parts') :
    R (groupPredicate b c parts) (groupPredicate b' c parts') := by
  cases hparts with
  | nil => exact h.alwaysTrue
  | cons hfirst htail =>
      cases htail with
      | nil => exact hfirst
      | cons hsecond htail =>
          exact h.combine c _ _ (.cons hfirst (.cons hsecond htail)) (by simp)

mutual

/-- Two backends in step compile a tree alike. -/
theorem compileCriteria_inStep (h : b.InStep s R b') :
    ∀ c : Criteria, SameOutcome R (s.compileCriteria b c) (s.compileCriteria b' c)
  | .group connector children => by
      rw [compileCriteria, compileCriteria]
      rcases (compileAll_inStep h children).exists_ok with ⟨parts, parts', hp, hp', hr⟩ | ⟨e, he, he'⟩
      · rw [hp, hp']
        exact .ok (groupPredicate_inStep h connector hr)
      · rw [he, he']
        exact .error e
  | .leaf field op value => by
      rw [compileCriteria, compileCriteria]
      cases hcolumn : s.resolve field with
      | ok column => exact .ok (leafPredicate_inStep h hcolumn op value)
      | error e => exact .error _

theorem compileAll_inStep (h : b.InStep s R b') :
    ∀ cs : List Criteria, SameOutcome (List.Forall₂ R) (s.compileAll b cs) (s.compileAll b' cs)
  | [] => by
      rw [compileAll, compileAll]
      exact .ok .nil
  | c :: cs => by
      rw [compileAll, compileAll]
      rcases (compileCriteria_inStep h c).exists_ok with ⟨p, p', hp, hp', hr⟩ | ⟨e, he, he'⟩
      · rw [hp, hp']
        rcases (compileAll_inStep h cs).exists_ok with ⟨ps, ps', hps, hps', hrs⟩ | ⟨e, he, he'⟩
        · rw [hps, hps']
          exact .ok (.cons hr hrs)
        · rw [he, he']
          exact .error e
      · rw [he, he']
        exact .error e

end

end Scope

end CriteriaQuery
