import CriteriaQuery.Proofs.Criteria.RoundTrip
import CriteriaQuery.Proofs.Document.Grammar
import Mathlib

/-!
# Documents written and read again

A document is well formed when its criteria are, when the fields that it sorts by and that it
projects have names, and when it projects no field twice. The documents that the reader gives are
well formed, and reading what such a document is written as gives the document back. So whatever
was read is read again from what it is written as.
-/

namespace CriteriaQuery

/-! ### Pages and sort keys -/

/-- Every page is denoted by what it is written as. -/
theorem Pager.denotes_toJson (p : Pager) : Denotes p.toJson p := by
  have hcounts : ∀ n : UInt64, Counts (Json.ofUInt64 n) n := fun n => .integer rfl
  obtain ⟨page, size⟩ := p
  cases size with
  | none => exact .object (.present (hcounts page)) .absent
  | some n => exact .object (.present (hcounts page)) (.present ⟨n, hcounts n, rfl⟩)

/-- A keyword spells itself. -/
theorem spells_self (keyword : String) : Spells keyword keyword :=
  List.forall₂_same.mpr fun _ _ => Or.inl rfl

namespace SortKey

/-- A sort key is denoted by what it is written as, if its field has a name. -/
theorem denotes_toJson {k : SortKey} (hblank : Text.isBlank k.field = false) :
    Denotes k.toJson k :=
  .object rfl hblank (.present (.token (spells_self _)))

theorem Denotes.isBlank {value : Json} {k : SortKey} (h : Denotes value k) :
    Text.isBlank k.field = false := by
  obtain ⟨_, hblank, _⟩ := h
  exact hblank

end SortKey

/-! ### Projections -/

theorem nodup_eraseDups {κ : Type} [DecidableEq κ] (ks : List κ) : ks.eraseDups.Nodup :=
  distinct_eq_eraseDups ks ▸ nodup_distinct ks

/-- A list without repeats stays as it is. -/
theorem eraseDups_eq_self {κ : Type} [DecidableEq κ] {ks : List κ} (h : ks.Nodup) :
    ks.eraseDups = ks := by
  induction ks with
  | nil => rfl
  | cons k ks ih =>
      obtain ⟨hk, hks⟩ := List.nodup_cons.mp h
      have hfilter : (ks.filter fun k' => !k' == k) = ks := by
        apply List.filter_eq_self.mpr
        intro k' hk'
        simpa using fun heq : k' = k => hk (heq ▸ hk')
      rw [List.eraseDups_cons, hfilter, ih hks]

namespace Document

theorem Names.isBlank {value : Json} {name : String} (h : Names value name) :
    Text.isBlank name = false := by
  obtain ⟨hblank⟩ := h
  exact hblank

/-! ### Documents -/

/-- The criteria are well formed, the fields sorted by or projected have names, and none is
projected twice. -/
structure WellFormed (d : Document) : Prop where
  criteria : d.criteria.WellFormed
  sorter : ∀ k ∈ d.sorter, Text.isBlank k.field = false
  projection : ∀ name ∈ d.projection, Text.isBlank name = false
  nodup : d.projection.Nodup

/-- A part of a document is its default, or is read from a value. -/
theorem readPart_eq_ok {α : Type} {key : String} {default a : α}
    {read : Json → String → Except DocumentError α} {members : List (String × Json)}
    (h : readPart key default read members = .ok a) :
    a = default ∨ ∃ value, read value key = .ok a := by
  unfold readPart at h
  split at h
  · exact Or.inl (Except.ok.inj h).symm
  · exact Or.inl (Except.ok.inj h).symm
  · exact Or.inr ⟨_, h⟩

/-- A part that is there and can be read is read. -/
theorem readPart_of_member {α : Type} {key : String} {default a : α}
    {read : Json → String → Except DocumentError α} {members : List (String × Json)} {value : Json}
    (hmember : Json.member? key members = some value) (hnull : value ≠ .null)
    (h : read value key = .ok a) : readPart key default read members = .ok a := by
  unfold readPart
  split
  · next hnone => simp [hnone] at hmember
  · next hsome => exact absurd (Option.some.inj (hmember.symm.trans hsome)) hnull
  · next hsome => rwa [← Option.some.inj (hmember.symm.trans hsome)]

/-- What the reader gives is well formed. -/
theorem wellFormed_of_ofJson {value : Json} {d : Document} (h : ofJson value = .ok d) :
    d.WellFormed := by
  unfold ofJson at h
  split at h
  case h_2 => simp at h
  obtain ⟨criteria, hcriteria, h⟩ := bind_eq_ok_iff.mp h
  obtain ⟨pager, -, h⟩ := bind_eq_ok_iff.mp h
  obtain ⟨sorter, hsorter, h⟩ := bind_eq_ok_iff.mp h
  obtain ⟨projection, hprojection, h⟩ := bind_eq_ok_iff.mp h
  obtain rfl := pure_eq_ok_iff.mp h
  constructor
  · rcases readPart_eq_ok hcriteria with rfl | ⟨_, hread⟩
    · exact trivial
    · exact Criteria.wellFormed_of_read hread
  · rcases readPart_eq_ok hsorter with rfl | ⟨_, hread⟩
    · simp
    · obtain ⟨hkeys⟩ := readSorter_eq_ok_iff.mp hread
      exact forall_of_forall₂ (fun _ _ hkey => hkey.isBlank) hkeys
  · rcases readPart_eq_ok hprojection with rfl | ⟨_, hread⟩
    · simp
    · obtain ⟨names, ⟨hnames⟩, rfl⟩ := readProjection_eq_ok_iff.mp hread
      intro name hname
      exact forall_of_forall₂ (fun _ _ hname => hname.isBlank) hnames name
        (List.mem_eraseDups.mp hname)
  · rcases readPart_eq_ok hprojection with rfl | ⟨_, hread⟩
    · exact List.nodup_nil
    · obtain ⟨names, -, rfl⟩ := readProjection_eq_ok_iff.mp hread
      exact nodup_eraseDups names

theorem readSorter_toJson {sorter : List SortKey} (path : String)
    (h : ∀ k ∈ sorter, Text.isBlank k.field = false) :
    readSorter (.array (sorter.map SortKey.toJson)) path = .ok sorter := by
  rw [readSorter_eq_ok_iff, Json.items_array, List.forall₂_map_left_iff, List.forall₂_same]
  exact fun k hk => SortKey.denotes_toJson (h k hk)

theorem readProjection_toJson {projection : List String} (path : String)
    (h : ∀ name ∈ projection, Text.isBlank name = false) (hnodup : projection.Nodup) :
    readProjection (.array (projection.map .string)) path = .ok projection := by
  rw [readProjection_eq_ok_iff]
  refine ⟨projection, ?_, eraseDups_eq_self hnodup⟩
  rw [Json.items_array, List.forall₂_map_left_iff, List.forall₂_same]
  exact fun name hname => .string (h name hname)

/-- Reading what a well-formed document is written as gives the document back. -/
theorem ofJson_toJson {d : Document} (h : d.WellFormed) : ofJson d.toJson = .ok d := by
  have hcriteria : Criteria.read d.criteria.toJson "criteria" = .ok d.criteria :=
    Criteria.read_toJson_eq_ok_iff.mpr h.criteria
  have hpager : Pager.read d.pager.toJson "pager" = .ok d.pager :=
    Pager.read_eq_ok_iff.mpr d.pager.denotes_toJson
  have hsorter := readSorter_toJson "sorter" h.sorter
  have hprojection := readProjection_toJson "projection" h.projection h.nodup
  have hobject : d.criteria.toJson ≠ .null := by cases d.criteria <;> simp [Criteria.toJson]
  simp only [ofJson, toJson, bind_eq_ok_iff, pure_eq_ok_iff]
  refine ⟨d.criteria, ?_, d.pager, ?_, d.sorter, ?_, d.projection, ?_, rfl⟩
  · exact readPart_of_member rfl hobject hcriteria
  · exact readPart_of_member rfl (by simp [Pager.toJson]) hpager
  · exact readPart_of_member rfl (by simp) hsorter
  · exact readPart_of_member rfl (by simp) hprojection

/-- A tree is read back from what it is written as exactly when it is well formed, whatever was
read is well formed and so is read back, and a document that was read is read back too. -/
theorem reads_back_iff_wellFormed :
    (∀ (tree : Criteria) (path : String),
      Criteria.read tree.toJson path = .ok tree ↔ tree.WellFormed) ∧
    (∀ (value : Json) (path : String) (tree : Criteria), Criteria.read value path = .ok tree →
      tree.WellFormed ∧ ∀ path', Criteria.read tree.toJson path' = .ok tree) ∧
    ∀ (value : Json) (d : Document), ofJson value = .ok d → ofJson d.toJson = .ok d := by
  refine ⟨fun tree path => Criteria.read_toJson_eq_ok_iff, ?_, ?_⟩
  · intro value path tree h
    have hformed := Criteria.wellFormed_of_read h
    exact ⟨hformed, fun path' => Criteria.read_toJson_eq_ok_iff.mpr hformed⟩
  · intro value d h
    exact ofJson_toJson (wellFormed_of_ofJson h)

/-- Criteria with an integer above the signed words and with a value of null. -/
def looseCriteria : Json :=
  .object [("connector", .string "OR"), ("children", .array [
    .object [("op", .string "ni"), ("field", .string "id"),
      ("value", .array [.number (.integer ⟨9223372036854775808, by decide, by decide⟩)])],
    .object [("field", .string "name"), ("op", .string "nn"), ("value", .null)]])]

/-- A document that the library writes in another way: with a page, with directions in capitals
and with each projected name once. -/
def looseJson : Json :=
  .object [("criteria", looseCriteria),
    ("sorter", .array [.object [("field", .string "id"), ("direction", .string "desc")]]),
    ("projection", .array [.string "id", .string "name", .string "id"])]

/-- What the loosely written document denotes. -/
def loose : Document where
  criteria := .group .or
    [.leaf "id" (.membership true) (.many [.float (Binary64.ofInt 9223372036854775808)]),
      .leaf "name" (.nullTest true) .absent]
  sorter := [⟨"id", .descending⟩]
  projection := ["id", "name"]

theorem denotes_looseCriteria : Criteria.Denotes looseCriteria loose.criteria :=
  .group rfl (.present (.array (.cons
    (.leaf rfl rfl (by decide) rfl (.membership true (.array (.cons (.wide (by decide)) .nil))))
    (.cons (.leaf rfl rfl (by decide) rfl (.nullTest true (Or.inr rfl))) .nil))))

theorem ofJson_looseJson : ofJson looseJson = .ok loose := by
  have hcriteria : Criteria.read looseCriteria "criteria" = .ok loose.criteria :=
    Criteria.read_eq_ok_iff.mpr denotes_looseCriteria
  have hobject : looseCriteria ≠ .null := by simp [looseCriteria]
  have hspells : Spells "desc" "DESC" :=
    .cons (by decide) (.cons (by decide) (.cons (by decide) (.cons (by decide) .nil)))
  have hsorter : readSorter
      (.array [.object [("field", .string "id"), ("direction", .string "desc")]]) "sorter" =
      .ok [⟨"id", .descending⟩] := by
    apply readSorter_eq_ok_iff.mpr
    exact .array (.cons (.object rfl (by decide) (.present (.token hspells))) .nil)
  have hprojection : readProjection (.array [.string "id", .string "name", .string "id"])
      "projection" = .ok ["id", "name"] := by cbv
  simp only [looseJson, ofJson, bind_eq_ok_iff, pure_eq_ok_iff]
  exact ⟨_, readPart_of_member rfl hobject hcriteria, {}, rfl,
    _, readPart_of_member rfl (by simp) hsorter,
    _, readPart_of_member rfl (by simp) hprojection, rfl⟩

/-- The loosely written document is read back, and a leaf without a value is read in place of one
whose value is not a number. -/
theorem reads_back_iff_wellFormed_loose :
    ofJson looseJson = .ok loose ∧ ofJson loose.toJson = .ok loose ∧
      Criteria.read (Criteria.toJson (.leaf "name" (.nullTest true) (.one (.float .nan)))) "criteria"
        ≠ .ok (.leaf "name" (.nullTest true) (.one (.float .nan))) := by
  refine ⟨ofJson_looseJson, reads_back_iff_wellFormed.2.2 _ _ ofJson_looseJson, ?_⟩
  rw [Ne, reads_back_iff_wellFormed.1]
  rintro ⟨-, hfinite⟩
  exact absurd (hfinite (.float .nan) (by simp [LeafValue.toList])) (by decide)

end Document

end CriteriaQuery
