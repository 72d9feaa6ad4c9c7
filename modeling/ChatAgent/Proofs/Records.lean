import ChatAgent.Json.Record
import ChatAgent.Proofs.JsonText

/-!
# Records there and back

What is written of a value is read again where there are levels enough for it (`Json.Rereads`). That
holds of a record if it holds of its fields, whichever of them are left out or are `null`
(`Json.Rereads.record`).
-/

namespace ChatAgent.Json

/-! ## Nesting -/

mutual

/-- How deep arrays and objects nest in a value. -/
def nesting : Json → Nat
  | .array items => nestingItems items + 1
  | .object fields => nestingFields fields + 1
  | .null | .bool _ | .number _ | .string _ => 0

def nestingItems : List Json → Nat
  | [] => 0
  | v :: vs => max (nesting v) (nestingItems vs)

def nestingFields : List (String × Json) → Nat
  | [] => 0
  | (_, v) :: fs => max (nesting v) (nestingFields fs)

end

variable {n : Nat}

theorem nestingItems_le {items : List Json} :
    nestingItems items ≤ n ↔ ∀ j ∈ items, j.nesting ≤ n := by
  induction items with
  | nil => simp [nestingItems]
  | cons v vs ih => rw [nestingItems, Nat.max_le, List.forall_mem_cons, ih]

theorem nestingFields_le {fields : List (String × Json)} :
    nestingFields fields ≤ n ↔ ∀ f ∈ fields, f.2.nesting ≤ n := by
  induction fields with
  | nil => simp [nestingFields]
  | cons f fs ih => rw [nestingFields, Nat.max_le, List.forall_mem_cons, ih]

theorem nesting_array_le {items : List Json} :
    (array items).nesting ≤ n + 1 ↔ ∀ j ∈ items, j.nesting ≤ n := by
  rw [nesting, Nat.add_le_add_iff_right, nestingItems_le]

theorem nesting_object_le {fields : List (String × Json)} :
    (object fields).nesting ≤ n + 1 ↔ ∀ f ∈ fields, f.2.nesting ≤ n := by
  rw [nesting, Nat.add_le_add_iff_right, nestingFields_le]

theorem exists_of_nesting_array {items : List Json} (h : (array items).nesting ≤ n) :
    ∃ m, n = m + 1 ∧ ∀ j ∈ items, j.nesting ≤ m := by
  cases n with
  | zero => rw [nesting] at h; omega
  | succ n => exact ⟨n, rfl, nesting_array_le.mp h⟩

theorem exists_of_nesting_object {fields : List (String × Json)} (h : (object fields).nesting ≤ n) :
    ∃ m, n = m + 1 ∧ ∀ f ∈ fields, f.2.nesting ≤ m := by
  cases n with
  | zero => rw [nesting] at h; omega
  | succ n => exact ⟨n, rfl, nesting_object_le.mp h⟩

theorem nesting_orNull_le {α : Type} {value : Option α} {toJson : α → Json}
    (h : ∀ a ∈ value, (toJson a).nesting ≤ n) : (orNull (value.map toJson)).nesting ≤ n := by
  cases value with
  | none => exact Nat.zero_le n
  | some a => exact h a rfl

/-- A value without floats that has its objects in ascending order, however deep it nests. -/
def Regular (j : Json) : Prop := ∃ n, Plain n j

theorem Plain.of_nesting {m : Nat} {j : Json} (h : Plain m j) (hn : j.nesting ≤ n) : Plain n j := by
  induction h generalizing n with
  | null => exact .null
  | bool => exact .bool
  | int h => exact .int h
  | string => exact .string
  | array _ ih =>
      obtain ⟨n, rfl, hitems⟩ := exists_of_nesting_array hn
      exact .array fun j hj => ih j hj (hitems j hj)
  | object sorted _ ih =>
      obtain ⟨n, rfl, hfields⟩ := exists_of_nesting_object hn
      exact .object sorted fun f hf => ih f hf (hfields f hf)

theorem Plain.nesting_le {j : Json} (h : Plain n j) : j.nesting ≤ n := by
  induction h with
  | null | bool | int | string => exact Nat.zero_le _
  | array _ ih => exact nesting_array_le.mpr ih
  | object _ _ ih => exact nesting_object_le.mpr ih

/-! ## Fields of a record -/

/-- What an object has under a name. -/
def Document.under (name : String) (given : List (Option String × Document)) : List Document :=
  (given.filter fun f => f.1 = some name).map (·.2)

namespace Given

section

open Document (under)

variable {names : List String} {given : List (Option String × Document)}

theorem under_cons_self (name : String) (d : Document) :
    under name ((some name, d) :: given) = d :: under name given := by
  simp [under]

theorem under_cons_of_ne {name key : String} (h : key ≠ name) (d : Document) :
    under name ((some key, d) :: given) = under name given := by
  simp [under, h]

/-- Every name can be read, and a field of the record is found exactly where it is given, once. -/
theorem under_of_named {values : List (String × Document)} (h : named names given = some values) :
    (∀ f ∈ given, f.1 ≠ none) ∧ ∀ name ∈ names, under name given = (values.lookup name).toList := by
  induction given generalizing values with
  | nil =>
      cases h
      exact ⟨nofun, fun _ _ => rfl⟩
  | cons field given ih =>
      obtain ⟨_ | key, d⟩ := field
      · cases h
      rw [named] at h
      cases hrest : named names given with
      | none => simp [hrest] at h
      | some rest =>
          obtain ⟨hsome, hunder⟩ := ih hrest
          refine ⟨List.forall_mem_cons.mpr ⟨nofun, hsome⟩, fun name hname => ?_⟩
          simp only [hrest] at h
          by_cases hkey : key ∈ names
          · rw [if_pos hkey] at h
            split at h
            · cases h
            · rename_i hnew
              cases h
              by_cases hne : key = name
              · subst hne
                rw [under_cons_self, hunder key hkey, List.lookup_cons_self]
                simp [Option.not_isSome_iff_eq_none.mp hnew]
              · rw [under_cons_of_ne hne, hunder name hname, List.lookup_cons,
                  beq_false_of_ne (Ne.symm hne)]
          · rw [if_neg hkey] at h
            cases h
            have hne : key ≠ name := fun he => hkey (he ▸ hname)
            rw [under_cons_of_ne hne, hunder name hname]

theorem exists_named (hsome : ∀ f ∈ given, f.1 ≠ none)
    (hone : ∀ name ∈ names, (under name given).length ≤ 1) :
    ∃ values, named names given = some values := by
  induction given with
  | nil => exact ⟨[], rfl⟩
  | cons field given ih =>
      obtain ⟨_ | key, d⟩ := field
      · exact absurd rfl (hsome _ List.mem_cons_self)
      have hsublist (name : String) :
          (under name given).length ≤ (under name ((some key, d) :: given)).length :=
        (((List.sublist_cons_self _ given).filter _).map _).length_le
      obtain ⟨rest, hrest⟩ := ih (fun f hf => hsome f (List.mem_cons_of_mem _ hf))
        fun name hname => Nat.le_trans (hsublist name) (hone name hname)
      rw [named, hrest]
      by_cases hkey : key ∈ names
      · have hnone : rest.lookup key = none := by
          have hlength := hone key hkey
          rw [under_cons_self, (under_of_named hrest).2 key hkey] at hlength
          simpa using hlength
        simp [hkey, hnone]
      · simp [hkey]

end

/-- A record whose fields all have names that it knows, each once, is given as it is. -/
theorem named_of_nodup {names : List String} {fields : List (String × Document)}
    (hnames : ∀ f ∈ fields, f.1 ∈ names) (hnodup : (fields.map (·.1)).Nodup) :
    named names (fields.map fun f => (some f.1, f.2)) = some fields := by
  induction fields with
  | nil => rfl
  | cons f fs ih =>
      rw [List.map_cons, List.nodup_cons] at hnodup
      have hfresh : fs.lookup f.1 = none := by
        rw [List.lookup_eq_none_iff]
        intro g hg
        have hne : f.1 ≠ g.1 := fun he => hnodup.1 (he ▸ List.mem_map_of_mem hg)
        simpa using hne
      rw [List.map_cons, named, ih (fun g hg => hnames g (List.mem_cons_of_mem _ hg)) hnodup.2]
      simp [hnames f List.mem_cons_self, hfresh]

theorem read_of_nodup (names : List String) (fields : List (String × Json)) (n : Nat)
    (hnames : ∀ f ∈ fields, f.1 ∈ names) (hnodup : (fields.map (·.1)).Nodup) :
    read names (n + 1) (toDocument (.object fields)) =
      some ⟨n, fields.map fun f => (f.1, toDocument f.2)⟩ := by
  have hnamed : named names ((fields.map fun f => (f.1, toDocument f.2)).map
      fun f => (some f.1, f.2)) = some (fields.map fun f => (f.1, toDocument f.2)) := by
    apply named_of_nodup
    · intro f hf
      obtain ⟨g, hg, rfl⟩ := List.mem_map.mp hf
      exact hnames g hg
    · rwa [List.map_map]
  rw [List.map_map] at hnamed
  rw [toDocument, fieldDocuments_eq, read]
  exact congrArg (Option.map _) hnamed

/-- The fields of a record as a written object gives them. -/
def ofFields (levels : Nat) (fields : List (String × Json)) : Given :=
  ⟨levels, fields.map fun f => (f.1, toDocument f.2)⟩

theorem lookup_ofFields (fields : List (String × Json)) (name : String) :
    (ofFields n fields).values.lookup name = (fields.lookup name).map toDocument := by
  induction fields with
  | nil => rfl
  | cons f fs ih =>
      obtain ⟨key, j⟩ := f
      simp only [ofFields, List.map_cons, List.lookup_cons] at ih ⊢
      split
      · rfl
      · exact ih

end Given

/-! ## Values that are read again -/

/-- What is written of a value is read again wherever there are levels enough for it. -/
structure Rereads {α : Type} (r : Reader α) (j : Json) (a : α) : Prop where
  exact : Exact j
  read : ∀ n, j.nesting ≤ n → r n (toDocument j) = some a

section

variable {α : Type} {r : Reader α} {j : Json} {a : α} {toJson : α → Json}

theorem Rereads.readText? (h : Rereads r j a) (hn : j.nesting ≤ Reader.maxLevels) :
    Json.readText? r j.text = some a := by
  rw [Json.readText?, Document.ofText?_text h.exact, Option.bind_some]
  exact h.read _ hn

theorem Rereads.string {s : String} : Rereads .string (.string s) s :=
  ⟨.string, fun _ _ => rfl⟩

theorem Rereads.bool {b : Bool} : Rereads .bool (.bool b) b :=
  ⟨.bool, fun _ _ => rfl⟩

theorem Rereads.word64 {n : Nat} (h : n ≤ word64Max) : Rereads .word64 (.int n) n := by
  have hbound : n ≤ 18446744073709551615 := h
  refine ⟨.int (by omega), fun _ _ => ?_⟩
  rw [Json.int, toDocument, Reader.word64, if_pos (by omega), Int.toNat_natCast]

theorem Rereads.word {words : List (String × α)} {s : String} (h : words.lookup s = some a) :
    Rereads (.word words) (.string s) a :=
  ⟨.string, fun _ _ => h⟩

theorem Rereads.json (h : j.Regular) : Rereads .json j j := by
  obtain ⟨n, hplain⟩ := h
  exact ⟨hplain.exact, fun m hm => Reader.json_toDocument (hplain.of_nesting hm)⟩

theorem Rereads.list {as : List α} (h : ∀ a ∈ as, Rereads r (toJson a) a) :
    Rereads (.list r) (.array (as.map toJson)) as := by
  constructor
  · refine .array fun j hj => ?_
    obtain ⟨a, ha, rfl⟩ := List.mem_map.mp hj
    exact (h a ha).exact
  · intro n hn
    obtain ⟨n, rfl, hitems⟩ := exists_of_nesting_array hn
    have hread : (as.map fun a => toDocument (toJson a)).mapM (r n) = some (as.map id) :=
      Reader.list_map as fun a ha =>
        (h a ha).read n (hitems _ (List.mem_map_of_mem ha))
    rw [toDocument, itemDocuments_eq, Reader.list, List.map_map]
    exact hread.trans (congrArg some (List.map_id as))

theorem Rereads.table {fields : List (String × α)} (hsorted : fields.Pairwise (·.1 < ·.1))
    (h : ∀ f ∈ fields, Rereads r (toJson f.2) f.2) :
    Rereads (.table r) (.object (fields.map fun (k, a) => (k, toJson a))) fields := by
  constructor
  · refine .object fun g hg => ?_
    obtain ⟨f, hf, rfl⟩ := List.mem_map.mp hg
    exact (h f hf).exact
  · intro n hn
    obtain ⟨n, rfl, hfields⟩ := exists_of_nesting_object hn
    have hread : Reader.fields (r n) (fields.map fun f => (some f.1, toDocument (toJson f.2))) =
        some fields :=
      @Reader.fields_map α (r n) fields (fun a => toDocument (toJson a)) fun f hf =>
        (h f hf).read n (hfields _ (List.mem_map_of_mem hf))
    rw [toDocument, fieldDocuments_eq, Reader.table, List.map_map]
    exact (congrArg (Option.map _) hread).trans (congrArg some (sortFields_sorted fields hsorted))

theorem Reader.optional_toDocument {n : Nat} (hj : j ≠ .null) (h : r n (toDocument j) = some a) :
    optional r n (toDocument j) = some (some a) := by
  cases j with
  | null => exact absurd rfl hj
  | _ => simp only [toDocument, optional] at h ⊢; rw [h]; rfl

/-- A value that is never written as `null` can have `null` stand for none. -/
theorem Rereads.orNull {value : Option α} (h : ∀ a ∈ value, Rereads r (toJson a) a)
    (hnull : ∀ a, toJson a ≠ .null) :
    Rereads (.optional r) (Json.orNull (value.map toJson)) value := by
  cases value with
  | none => exact ⟨.null, fun _ _ => rfl⟩
  | some a =>
      have ha := h a rfl
      exact ⟨ha.exact, fun n hn => Reader.optional_toDocument (hnull a) (ha.read n hn)⟩

end

/-! ## Records -/

section

variable {α β : Type} {r : Reader α} {a : α} {fields : List (String × Json)} {name : String}

theorem mem_of_lookup {j : Json} (h : fields.lookup name = some j) : (name, j) ∈ fields := by
  obtain ⟨before, after, rfl, -⟩ := List.lookup_eq_some_iff.mp h
  exact List.mem_append_right _ List.mem_cons_self

namespace Given

variable {n : Nat} (hn : ∀ f ∈ fields, f.2.nesting ≤ n)

include hn

theorem orElse_bind {j : Json} {absent : α} (hj : fields.lookup name = some j)
    (h : Rereads r j a) (k : α → Option β) :
    ((ofFields n fields).orElse name r absent >>= k) = k a := by
  rw [orElse, lookup_ofFields, hj]
  exact congrArg (Option.bind · k) (h.read n (hn _ (mem_of_lookup hj)))

theorem required_bind {j : Json} (hj : fields.lookup name = some j) (h : Rereads r j a)
    (k : α → Option β) : ((ofFields n fields).required name r >>= k) = k a := by
  rw [required, lookup_ofFields, hj]
  exact congrArg (Option.bind · k) (h.read n (hn _ (mem_of_lookup hj)))

/-- A field that is left out is read as none. -/
theorem optional_bind (value : Option α) {toJson : α → Json}
    (hlookup : fields.lookup name = value.map toJson) (h : ∀ a ∈ value, Rereads r (toJson a) a)
    (hnull : ∀ a, toJson a ≠ .null) (k : Option α → Option β) :
    ((ofFields n fields).optional name r >>= k) = k value := by
  cases value with
  | none =>
      rw [optional, orElse, lookup_ofFields, hlookup]
      rfl
  | some a => exact orElse_bind hn hlookup (Rereads.orNull h hnull) k

end Given

/-- A record is read again if its fields are, each of which is written once at most. -/
theorem Rereads.record (names : List String) {build : Given → Option α}
    (hread : ∀ n d, r n d = (Given.read names n d).bind build)
    (hnames : (fields.map (·.1)).Sublist names) (hnodup : names.Nodup)
    (hexact : ∀ f ∈ fields, Exact f.2)
    (hbuild : ∀ n, (∀ f ∈ fields, f.2.nesting ≤ n) → build (.ofFields n fields) = some a) :
    Rereads r (.object fields) a := by
  refine ⟨.object hexact, fun n hn => ?_⟩
  obtain ⟨n, rfl, hfields⟩ := exists_of_nesting_object hn
  rw [hread, Given.read_of_nodup names fields n
    (fun f hf => hnames.subset (List.mem_map_of_mem hf)) (hnames.nodup hnodup)]
  exact hbuild n hfields

end

/-! ## Fields that may be left out -/

section

variable (key name : String) (value : Option Json)

@[simp] theorem lookup_present :
    (present name value).lookup key = if key = name then value else none := by
  cases value with
  | none => simp [present]
  | some j =>
      by_cases h : key = name
      · simp [present, h]
      · simp [present, List.lookup_cons, beq_false_of_ne h, h]

theorem sublist_present : ((present name value).map (·.1)).Sublist [name] := by
  cases value <;> simp [present]

theorem exact_present {value : Option Json} (h : ∀ j ∈ value, Exact j) :
    ∀ f ∈ present name value, Exact f.2 := by
  cases value with
  | none => nofun
  | some j => simpa [present] using h

end

end ChatAgent.Json
