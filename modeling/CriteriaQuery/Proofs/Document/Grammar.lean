import CriteriaQuery.Document
import CriteriaQuery.Proofs.Criteria.Grammar

/-!
# The grammar of documents

Which JSON values are query documents, and what they denote: criteria, a page, sort keys and
projected names, each of which may be left out. The reader accepts exactly these values and gives
what they denote.
-/

namespace CriteriaQuery

/-- A token spells a keyword, with capital or small letters. -/
def Spells (token keyword : String) : Prop :=
  List.Forall₂ (fun c k => c = k ∨ c = k.toLower) token.toList keyword.toList

/-- The count that a whole number denotes. -/
inductive Pager.Counts : Json → UInt64 → Prop
  | integer {n : WideInt} {count : UInt64} (h : n.val = count.toNat) :
    Counts (.number (.integer n)) count

/-- The requested page that a JSON value denotes: the first one, unless it says otherwise. -/
inductive Pager.Denotes : Json → Pager → Prop
  | object {members : List (String × Json)} {page : UInt64} {size : Option UInt64}
    (hpage : Json.Part Counts 1 (Json.member? "page" members) page)
    (hsize : Json.Part (fun value size => ∃ n, Counts value n ∧ size = some n) none
      (Json.member? "size" members) size) :
    Denotes (.object members) ⟨page, size⟩

/-- The direction that a JSON value denotes. -/
inductive SortDirection.Denotes : Json → SortDirection → Prop
  | token {token : String} {direction : SortDirection} (h : Spells token direction.keyword) :
    Denotes (.string token) direction

/-- The sort key that a JSON value denotes. -/
inductive SortKey.Denotes : Json → SortKey → Prop
  | object {members : List (String × Json)} {field : String} {direction : SortDirection}
    (hfield : Json.member? "field" members = some (.string field))
    (hblank : Text.isBlank field = false)
    (hdirection : Json.Part SortDirection.Denotes .ascending (Json.member? "direction" members)
      direction) :
    Denotes (.object members) ⟨field, direction⟩

namespace Document

/-- The name that a JSON value denotes. -/
inductive Names : Json → String → Prop
  | string {name : String} (hblank : Text.isBlank name = false) : Names (.string name) name

/-- The document that a JSON value denotes. Of names that are projected several times, the first
stays where it is. -/
inductive Denotes : Json → Document → Prop
  | object {members : List (String × Json)} {criteria : Criteria} {pager : Pager}
    {sorter : List SortKey} {names : List String}
    (hcriteria :
      Json.Part Criteria.Denotes .unrestricted (Json.member? "criteria" members) criteria)
    (hpager : Json.Part Pager.Denotes {} (Json.member? "pager" members) pager)
    (hsorter : Json.Part (Json.Items SortKey.Denotes) [] (Json.member? "sorter" members) sorter)
    (hprojection : Json.Part (Json.Items Names) [] (Json.member? "projection" members) names) :
    Denotes (.object members) ⟨criteria, pager, sorter, names.eraseDups⟩

end Document

/-! ### Pages -/

theorem Json.count?_eq_some_iff {value : Json} {n : UInt64} :
    value.count? = some n ↔ Pager.Counts value n := by
  constructor
  · intro h
    unfold count? at h
    split at h
    · next i =>
        split at h
        · next hle =>
            obtain rfl := Option.some.inj h
            have hupper := i.upper
            have hsize : i.val.toNat < UInt64.size := by
              change _ < 18446744073709551616
              omega
            apply Pager.Counts.integer
            rw [UInt64.toNat_ofNat_of_lt' hsize, Int.toNat_of_nonneg hle]
        · simp at h
    · simp at h
  · rintro ⟨h⟩
    rw [count?, h, if_pos (Int.natCast_nonneg _)]
    simp

namespace Pager

variable {members : List (String × Json)} {key path : String}

theorem readCount_eq_ok_iff {count : Option UInt64} :
    readCount key members path = .ok count ↔
      Json.Part (fun value count => ∃ n, Counts value n ∧ count = some n) none
        (Json.member? key members) count := by
  have hnull : ¬ ∃ n, Counts .null n ∧ count = some n := by rintro ⟨n, ⟨⟩, -⟩
  unfold readCount
  split
  · next hnone => rw [hnone, Json.part_none, Except.ok.injEq, eq_comm]
  · next hmember => rw [hmember, Json.part_null hnull, Except.ok.injEq, eq_comm]
  · next value hvalue hmember =>
      rw [hmember, Json.part_some (by simpa using hvalue)]
      simp only [← Json.count?_eq_some_iff]
      cases value.count? <;> simp [eq_comm]

/-- A count that is left out has the value that it is taken for. -/
theorem part_getD_iff {raw : Option Json} {default n : UInt64} :
    (∃ count, Json.Part (fun value count => ∃ n, Counts value n ∧ count = some n) none raw count ∧
      count.getD default = n) ↔ Json.Part Counts default raw n := by
  constructor
  · rintro ⟨count, hpart, rfl⟩
    cases hpart with
    | absent => exact .absent
    | null => exact .null
    | present h =>
        obtain ⟨n, hcounts, rfl⟩ := h
        exact .present hcounts
  · intro h
    cases h with
    | absent => exact ⟨none, .absent, rfl⟩
    | null => exact ⟨none, .null, rfl⟩
    | present h => exact ⟨some n, .present ⟨n, h, rfl⟩, rfl⟩

theorem read_eq_ok_iff {value : Json} {pager : Pager} :
    read value path = .ok pager ↔ Denotes value pager := by
  cases value with
  | object members =>
      simp only [read, bind_eq_ok_iff, readCount_eq_ok_iff, pure_eq_ok_iff]
      constructor
      · rintro ⟨page, hpage, size, hsize, rfl⟩
        exact .object (part_getD_iff.mp ⟨page, hpage, rfl⟩) hsize
      · rintro ⟨hpage, hsize⟩
        obtain ⟨page, hpart, rfl⟩ := part_getD_iff.mpr hpage
        exact ⟨page, hpart, _, hsize, rfl⟩
  | _ => exact ⟨by simp [read], by rintro ⟨⟩⟩

end Pager

/-! ### Sort keys -/

/-- Only a letter itself and its small form have the letter as their capital form. -/
theorem toUpper_eq_iff {c k : Char} (hk : k.isUpper = true) :
    c.toUpper = k ↔ c = k ∨ c = k.toLower := by
  have hcapital : k.val ≥ 'A'.val ∧ k.val ≤ 'Z'.val := of_decide_eq_true hk
  have hrange : 65 ≤ k.val.toNat ∧ k.val.toNat ≤ 90 := by
    simpa [UInt32.le_iff_toNat_le] using hcapital
  have hlower : k.toLower.val = k.val + 32 := congrArg Char.val (dif_pos hcapital)
  rw [Char.ext_iff, Char.ext_iff, Char.ext_iff, hlower]
  unfold Char.toUpper
  split
  · next h =>
      have hc : 97 ≤ c.val.toNat ∧ c.val.toNat ≤ 122 := by
        simpa [UInt32.le_iff_toNat_le] using h
      have hshift : 'A'.val - 'a'.val = 4294967264 := rfl
      simp only [← UInt32.toNat_inj, UInt32.toNat_add, hshift, UInt32.reduceToNat]
      omega
  · next h =>
      have hc : ¬ (97 ≤ c.val.toNat ∧ c.val.toNat ≤ 122) := by
        simpa [UInt32.le_iff_toNat_le] using h
      simp only [← UInt32.toNat_inj, UInt32.toNat_add, UInt32.reduceToNat]
      omega

theorem map_toUpper_eq_iff {cs ks : List Char} (hks : ∀ k ∈ ks, k.isUpper = true) :
    cs.map Char.toUpper = ks ↔ List.Forall₂ (fun c k => c = k ∨ c = k.toLower) cs ks := by
  induction ks generalizing cs with
  | nil => simp
  | cons k ks ih =>
      have hk := hks k List.mem_cons_self
      have hrest := fun k' hk' => hks k' (List.mem_cons_of_mem k hk')
      cases cs with
      | nil => simp
      | cons c cs =>
          rw [List.map_cons, List.cons.injEq, toUpper_eq_iff hk, ih hrest, List.forall₂_cons]

namespace SortDirection

theorem ofToken?_eq_some_iff {token : String} {direction : SortDirection} :
    ofToken? token = some direction ↔ Spells token direction.keyword := by
  have hkeyword : ofToken? token = some direction ↔ token.toUpper = direction.keyword := by
    unfold ofToken?
    by_cases hasc : token.toUpper = "ASC"
    · rw [if_pos hasc, hasc]
      cases direction <;> simp [keyword]
    · rw [if_neg hasc]
      cases direction <;> simp [keyword, hasc]
  have hupper : ∀ k ∈ direction.keyword.toList, k.isUpper = true := by
    apply List.all_eq_true.mp
    cases direction <;> rfl
  rw [hkeyword, Spells, ← map_toUpper_eq_iff hupper, ← String.toList_inj, String.toUpper,
    String.toList_map]

end SortDirection

theorem fieldName?_eq_some_iff {raw : Option Json} {name : String} :
    fieldName? raw = some name ↔ raw = some (.string name) ∧ Text.isBlank name = false := by
  unfold fieldName?
  split
  · next s =>
      simp only [Option.some.injEq, Json.string.injEq]
      constructor
      · intro h
        split at h
        · simp at h
        · next hblank =>
            obtain rfl := Option.some.inj h
            exact ⟨rfl, by simpa using hblank⟩
      · rintro ⟨rfl, hblank⟩
        rw [if_neg (by simp [hblank])]
  · next hstring =>
      simp only [reduceCtorEq, false_iff]
      rintro ⟨rfl, -⟩
      exact hstring name rfl

namespace SortKey

variable {members : List (String × Json)} {path : String}

theorem readDirection_eq_ok_iff {direction : SortDirection} :
    readDirection members path = .ok direction ↔
      Json.Part SortDirection.Denotes .ascending (Json.member? "direction" members) direction := by
  have hnull : ¬ SortDirection.Denotes .null direction := by rintro ⟨⟩
  unfold readDirection
  split
  · next hnone => rw [hnone, Json.part_none, Except.ok.injEq, eq_comm]
  · next hmember => rw [hmember, Json.part_null hnull, Except.ok.injEq, eq_comm]
  · next token hmember =>
      rw [hmember, Json.part_some (by simp)]
      constructor
      · intro h
        split at h
        · next d hd =>
            obtain rfl := Except.ok.inj h
            exact .token (SortDirection.ofToken?_eq_some_iff.mp hd)
        · simp at h
      · rintro ⟨hspells⟩
        rw [SortDirection.ofToken?_eq_some_iff.mpr hspells]
  · next value hvalue hstring hmember =>
      rw [hmember, Json.part_some (by simpa using hvalue)]
      simp only [reduceCtorEq, false_iff]
      rintro ⟨-⟩
      exact hstring _ rfl

theorem read_eq_ok_iff {value : Json} {key : SortKey} :
    read value path = .ok key ↔ Denotes value key := by
  cases value with
  | object members =>
      rw [read]
      cases hname : fieldName? (Json.member? "field" members) with
      | none =>
          simp only [reduceCtorEq, false_iff]
          rintro ⟨hfield, hblank, -⟩
          simp [fieldName?_eq_some_iff.mpr ⟨hfield, hblank⟩] at hname
      | some field =>
          obtain ⟨hfield, hblank⟩ := fieldName?_eq_some_iff.mp hname
          simp only [map_eq_ok_iff, readDirection_eq_ok_iff]
          constructor
          · rintro ⟨direction, hdirection, rfl⟩
            exact .object hfield hblank hdirection
          · rintro ⟨hfield', -, hdirection⟩
            obtain rfl : _ = field := by simpa [hfield'] using hfield
            exact ⟨_, hdirection, rfl⟩
  | _ => exact ⟨by simp [read], by rintro ⟨⟩⟩

theorem readAll_eq_ok_iff {index : Nat} {items : List Json} {keys : List SortKey} :
    readAll path index items = .ok keys ↔ List.Forall₂ Denotes items keys := by
  induction items generalizing index keys with
  | nil => simp [readAll, eq_comm]
  | cons item rest ih =>
      simp only [readAll, bind_eq_ok_iff, read_eq_ok_iff, ih, pure_eq_ok_iff,
        List.forall₂_cons_left_iff]
      constructor
      · rintro ⟨key, hkey, keys, hkeys, rfl⟩
        exact ⟨key, keys, hkey, hkeys, rfl⟩
      · rintro ⟨key, keys, hkey, hkeys, rfl⟩
        exact ⟨key, hkey, keys, hkeys, rfl⟩

end SortKey

/-! ### Documents -/

/-- The list without repeats keeps the first of each. -/
theorem distinctAfter_eq_eraseDups {κ : Type} [DecidableEq κ] (seen ks : List κ) :
    distinctAfter id seen ks = (ks.filter fun k => k ∉ seen).eraseDups := by
  induction ks generalizing seen with
  | nil => rfl
  | cons k ks ih =>
      rw [distinctAfter, id]
      by_cases hk : k ∈ seen
      · rw [if_pos hk, ih, List.filter_cons_of_neg (by simpa using hk)]
      · rw [if_neg hk, ih, List.filter_cons_of_pos (by simpa using hk), List.eraseDups_cons,
          List.filter_filter]
        congr 3
        funext k'
        simp [not_or, beq_eq_decide]

theorem distinct_eq_eraseDups {κ : Type} [DecidableEq κ] (ks : List κ) :
    distinct ks = ks.eraseDups := by
  simpa [distinct, distinctBy] using distinctAfter_eq_eraseDups [] ks

namespace Document

variable {path : String}

theorem items_eq_ok_iff {value : Json} {items : List Json} :
    Document.items value path = .ok items ↔ value = .array items := by
  cases value <;> simp [Document.items]

theorem readSorter_eq_ok_iff {value : Json} {keys : List SortKey} :
    readSorter value path = .ok keys ↔ Json.Items SortKey.Denotes value keys := by
  simp only [readSorter, bind_eq_ok_iff, items_eq_ok_iff, SortKey.readAll_eq_ok_iff]
  constructor
  · rintro ⟨items, rfl, hkeys⟩
    exact .array hkeys
  · rintro ⟨hkeys⟩
    exact ⟨_, rfl, hkeys⟩

theorem fieldName?_eq_some_iff_names {item : Json} {name : String} :
    fieldName? (some item) = some name ↔ Names item name := by
  rw [fieldName?_eq_some_iff, Option.some.injEq]
  constructor
  · rintro ⟨rfl, hblank⟩
    exact .string hblank
  · rintro ⟨hblank⟩
    exact ⟨rfl, hblank⟩

theorem readNames_eq_ok_iff {index : Nat} {items : List Json} {names : List String} :
    readNames path index items = .ok names ↔ List.Forall₂ Names items names := by
  induction items generalizing index names with
  | nil => simp [readNames, eq_comm]
  | cons item rest ih =>
      rw [readNames, List.forall₂_cons_left_iff]
      simp only [← fieldName?_eq_some_iff_names]
      cases fieldName? (some item) with
      | none => simp
      | some name => simp [map_eq_ok_iff, ih, @eq_comm _ names]

theorem readProjection_eq_ok_iff {value : Json} {projection : List String} :
    readProjection value path = .ok projection ↔
      ∃ names, Json.Items Names value names ∧ names.eraseDups = projection := by
  simp only [readProjection, bind_eq_ok_iff, items_eq_ok_iff, readNames_eq_ok_iff, pure_eq_ok_iff,
    distinct_eq_eraseDups]
  constructor
  · rintro ⟨items, rfl, names, hnames, rfl⟩
    exact ⟨names, .array hnames, rfl⟩
  · rintro ⟨names, ⟨hnames⟩, rfl⟩
    exact ⟨_, rfl, names, hnames, rfl⟩

/-- A part that is read as what it denotes is taken for its default when it is left out. -/
theorem readPart_eq_ok_iff {α : Type} {R : Json → α → Prop} {key : String} {default a : α}
    {read : Json → String → Except DocumentError α} {members : List (String × Json)}
    (hread : ∀ value, read value key = .ok a ↔ R value a) (hnull : ¬ R .null a) :
    readPart key default read members = .ok a ↔
      Json.Part R default (Json.member? key members) a := by
  unfold readPart
  split
  · next hnone => rw [hnone, Json.part_none, Except.ok.injEq, eq_comm]
  · next hmember => rw [hmember, Json.part_null hnull, Except.ok.injEq, eq_comm]
  · next value hvalue hmember =>
      rw [hmember, Json.part_some (by simpa using hvalue)]
      exact hread value

/-- The names of a projection that is left out are none. -/
theorem part_eraseDups_iff {raw : Option Json} {projection : List String} :
    Json.Part (fun value projection => ∃ names, Json.Items Names value names ∧
        names.eraseDups = projection) [] raw projection ↔
      ∃ names, Json.Part (Json.Items Names) [] raw names ∧ names.eraseDups = projection := by
  constructor
  · intro h
    cases h with
    | absent => exact ⟨[], .absent, rfl⟩
    | null => exact ⟨[], .null, rfl⟩
    | present h =>
        obtain ⟨names, hnames, heq⟩ := h
        exact ⟨names, .present hnames, heq⟩
  · rintro ⟨names, hpart, rfl⟩
    cases hpart with
    | absent => exact .absent
    | null => exact .null
    | present hnames => exact .present ⟨names, hnames, rfl⟩

/-- A JSON value is read as a document exactly when it denotes that document in the grammar. -/
theorem ofJson_eq_ok_iff_denotes (value : Json) (document : Document) :
    ofJson value = .ok document ↔ Denotes value document := by
  cases value with
  | object members =>
      have hcriteria : ∀ criteria,
          readPart "criteria" Criteria.unrestricted Criteria.read members = .ok criteria ↔
            Json.Part Criteria.Denotes .unrestricted (Json.member? "criteria" members) criteria :=
        fun _ => readPart_eq_ok_iff (fun _ => Criteria.read_eq_ok_iff) (by rintro ⟨⟩)
      have hpager : ∀ pager, readPart "pager" {} Pager.read members = .ok pager ↔
          Json.Part Pager.Denotes {} (Json.member? "pager" members) pager :=
        fun _ => readPart_eq_ok_iff (fun _ => Pager.read_eq_ok_iff) (by rintro ⟨⟩)
      have hsorter : ∀ keys, readPart "sorter" [] readSorter members = .ok keys ↔
          Json.Part (Json.Items SortKey.Denotes) [] (Json.member? "sorter" members) keys :=
        fun _ => readPart_eq_ok_iff (fun _ => readSorter_eq_ok_iff) (by rintro ⟨⟩)
      have hprojection : ∀ projection,
          readPart "projection" [] readProjection members = .ok projection ↔
            ∃ names, Json.Part (Json.Items Names) [] (Json.member? "projection" members) names ∧
              names.eraseDups = projection := by
        intro projection
        rw [← part_eraseDups_iff]
        exact readPart_eq_ok_iff (fun _ => readProjection_eq_ok_iff) (by rintro ⟨_, ⟨⟩, _⟩)
      simp only [ofJson, bind_eq_ok_iff, hcriteria, hpager, hsorter, hprojection, pure_eq_ok_iff]
      constructor
      · rintro ⟨criteria, hc, pager, hp, sorter, hs, projection, ⟨names, hn, rfl⟩, rfl⟩
        exact .object hc hp hs hn
      · rintro ⟨hc, hp, hs, hn⟩
        exact ⟨_, hc, _, hp, _, hs, _, ⟨_, hn, rfl⟩, rfl⟩
  | _ => exact ⟨by simp [ofJson], by rintro ⟨⟩⟩

end Document

end CriteriaQuery
