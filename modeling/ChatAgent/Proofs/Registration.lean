import ChatAgent.Proofs.Dispatch
import ChatAgent.Proofs.Utf8
import Mathlib.Data.List.Induction

/-!
# Registration

Whatever has been registered, and in whatever order, a registry has the last tool of each name. Its
tools are listed by their names, and offered and counted as they are listed; what has been listed
once stays as it is (`Registry.listing`).
-/

namespace ChatAgent

variable {α : Type}

/-! ## Fields in ascending order -/

namespace Json

variable {key : String} {value : α} {fields fields' : List (String × α)}

theorem lookup_cons_eq (name key : String) (value : α) (fields : List (String × α)) :
    ((key, value) :: fields).lookup name =
      if name = key then some value else fields.lookup name := by
  rw [List.lookup_cons]
  by_cases h : name = key
  · subst h
    simp
  · simp [h, beq_false_of_ne h]

theorem lookup_insertField (key name : String) (value : α) (fields : List (String × α)) :
    (insertField key value fields).lookup name =
      if name = key then some value else fields.lookup name := by
  induction fields with
  | nil => rw [insertField, lookup_cons_eq]
  | cons f fs ih =>
      obtain ⟨k, v⟩ := f
      rw [insertField]
      split
      · rw [lookup_cons_eq]
      · split
        · rename_i hkey
          subst hkey
          rw [lookup_cons_eq, lookup_cons_eq]
          split <;> rfl
        · rename_i hkey
          rw [lookup_cons_eq, lookup_cons_eq, ih]
          by_cases hname : name = k
          · subst hname
            rw [if_pos rfl, if_neg (Ne.symm hkey), if_pos rfl]
          · rw [if_neg hname, if_neg hname]

theorem pairwise_insertField (key : String) (value : α) (h : fields.Pairwise (·.1 < ·.1)) :
    (insertField key value fields).Pairwise (·.1 < ·.1) := by
  induction fields with
  | nil => exact List.pairwise_singleton _ _
  | cons f fs ih =>
      obtain ⟨k, v⟩ := f
      obtain ⟨hf, hfs⟩ := List.pairwise_cons.mp h
      rw [insertField]
      split
      · rename_i hkey
        refine .cons (fun g hg => ?_) h
        cases hg with
        | head => exact hkey
        | tail _ hg => exact String.lt_trans hkey (hf g hg)
      · split
        · rename_i hkey
          subst hkey
          exact .cons hf hfs
        · rename_i hlt hne
          refine .cons (fun g hg => ?_) (ih hfs)
          rcases Registry.mem_insertField hg with rfl | hg
          · exact Std.lt_of_le_of_ne (String.not_lt.mp hlt) (Ne.symm hne)
          · exact hf g hg

theorem mem_iff_lookup (h : fields.Pairwise (·.1 < ·.1)) :
    (key, value) ∈ fields ↔ fields.lookup key = some value := by
  induction fields with
  | nil => simp
  | cons f fs ih =>
      obtain ⟨k, v⟩ := f
      obtain ⟨hf, hfs⟩ := List.pairwise_cons.mp h
      rw [List.mem_cons, lookup_cons_eq, ih hfs]
      by_cases hk : key = k
      · subst hk
        have hnone : fs.lookup key ≠ some value := fun hm =>
          String.lt_irrefl _ (hf (key, value) ((ih hfs).mpr hm))
        simp [hnone, eq_comm]
      · simp [hk]

/-- Ascending lists in which the same is found are the same. -/
theorem eq_of_lookup (h : fields.Pairwise (·.1 < ·.1)) (h' : fields'.Pairwise (·.1 < ·.1))
    (hlookup : ∀ name, fields.lookup name = fields'.lookup name) : fields = fields' := by
  have hnodup {fs : List (String × α)} (hfs : fs.Pairwise (·.1 < ·.1)) : fs.Nodup := by
    refine List.Pairwise.imp (fun hlt heq => ?_) hfs
    subst heq
    exact String.lt_irrefl _ hlt
  refine List.Perm.eq_of_pairwise (fun f g _ _ hfg hgf => ?_) h h' ?_
  · exact absurd hfg (String.lt_asymm hgf)
  · refine (List.perm_ext_iff_of_nodup (hnodup h) (hnodup h')).mpr fun f => ?_
    rw [mem_iff_lookup h, mem_iff_lookup h', hlookup]

end Json

/-! ## The last tool of a name -/

namespace Tool

/-- The last of several tools that has a name. -/
def last? (ts : List Tool) (name : String) : Option Tool := ts.reverse.find? (·.name = name)

theorem last?_concat (ts : List Tool) (t : Tool) (name : String) :
    last? (ts ++ [t]) name = if name = t.name then some t else last? ts name := by
  rw [last?, List.reverse_append, List.reverse_singleton, List.singleton_append, List.find?_cons]
  by_cases h : name = t.name
  · simp [h]
  · simp [h, Ne.symm h, last?]

theorem isSome_last? {ts : List Tool} {name : String} :
    (last? ts name).isSome ↔ ∃ t ∈ ts, t.name = name := by
  simp [last?, List.find?_isSome]

end Tool

namespace Registry

/-! ## What a registry has -/

/-- Each tool is kept under its name, and the names ascend. -/
structure Ordered (r : Registry) : Prop where
  named : ∀ x ∈ r.tools, x.2.name = x.1
  ascends : r.tools.Pairwise (·.1 < ·.1)

theorem get?_register (r : Registry) (t : Tool) (name : String) :
    (r.register t).get? name = if name = t.name then some t else r.get? name :=
  Json.lookup_insertField ..

theorem Ordered.register {r : Registry} (h : r.Ordered) (t : Tool) : (r.register t).Ordered where
  named x hx := by
    rcases mem_insertField hx with rfl | hx
    · rfl
    · exact h.named x hx
  ascends := Json.pairwise_insertField _ _ h.ascends

theorem ofList_concat (ts : List Tool) (t : Tool) :
    ofList (ts ++ [t]) = (ofList ts).register t := by
  rw [ofList, List.foldl_append]
  rfl

theorem ordered_ofList (ts : List Tool) : (ofList ts).Ordered := by
  induction ts using List.reverseRecOn with
  | nil => exact ⟨nofun, .nil⟩
  | append_singleton ts t ih =>
      rw [ofList_concat]
      exact ih.register t

theorem get?_ofList (ts : List Tool) (name : String) :
    (ofList ts).get? name = Tool.last? ts name := by
  induction ts using List.reverseRecOn with
  | nil => rfl
  | append_singleton ts t ih => rw [ofList_concat, get?_register, ih, Tool.last?_concat]

namespace Ordered

variable {r r' : Registry} (h : r.Ordered)

include h

theorem names_list : r.list.map (·.name) = r.tools.map (·.1) := by
  rw [list, List.map_map]
  exact List.map_congr_left h.named

theorem names_ascend : (r.list.map fun d => Text.bytes d.name).Pairwise (· < ·) := by
  have hnames : (r.list.map (·.name)).Pairwise (· < ·) := by
    rw [h.names_list]
    exact h.ascends.map _ fun _ _ => id
  have hbytes := hnames.map Text.bytes fun _ _ => Text.bytes_lt
  rwa [List.map_map] at hbytes

theorem mem_list {d : Definition} :
    d ∈ r.list ↔ ∃ t, r.get? d.name = some t ∧ t.definition = d := by
  constructor
  · intro hd
    obtain ⟨⟨name, t⟩, hx, rfl⟩ := List.mem_map.mp hd
    have hname : t.name = name := h.named _ hx
    subst hname
    exact ⟨t, (Json.mem_iff_lookup h.ascends).mp hx, rfl⟩
  · rintro ⟨t, ht, rfl⟩
    exact List.mem_map.mpr ⟨_, (Json.mem_iff_lookup h.ascends).mpr ht, rfl⟩

theorem find?_list (name : String) :
    r.list.find? (·.name = name) = (r.get? name).map (·.definition) := by
  obtain ⟨tools⟩ := r
  have hnamed := h.named
  clear h
  induction tools with
  | nil => rfl
  | cons x xs ih =>
      obtain ⟨key, t⟩ := x
      have hkey : t.definition.name = key := hnamed _ List.mem_cons_self
      have ih := ih fun y hy => hnamed y (List.mem_cons_of_mem _ hy)
      simp only [list, get?, List.map_cons, Json.lookup_cons_eq] at ih ⊢
      rw [List.find?_cons, hkey, ih]
      by_cases hname : name = key
      · simp [hname]
      · simp [hname, Ne.symm hname]

theorem contains_iff {name : String} : r.contains name ↔ ∃ d ∈ r.list, d.name = name := by
  rw [contains, ← Option.isSome_map, ← h.find?_list]
  simp [List.find?_isSome]

/-- A registry is known by the tools that it has. -/
theorem ext (h' : r'.Ordered) (hget : ∀ name, r.get? name = r'.get? name) : r = r' := by
  obtain ⟨tools⟩ := r
  obtain ⟨tools'⟩ := r'
  exact congrArg Registry.mk (Json.eq_of_lookup h.ascends h'.ascends hget)

end Ordered

/-! ## What is done with a registry -/

/-- What somebody does with a registry that others use as well. -/
inductive Use
  | register (t : Tool)
  /-- The tools are listed, and offered to a backend, and both lists are kept. -/
  | snapshot

namespace Use

def tool? : Use → Option Tool
  | register t => some t
  | snapshot => none

/-- The tools that are registered, in order. -/
def registered (uses : List Use) : List Tool := uses.filterMap tool?

end Use

/-- A registry, and the lists that have been taken of it. -/
structure Session where
  registry : Registry
  snapshots : List (List Definition × List Offer)

namespace Session

def use (s : Session) : Use → Session
  | .register t => { s with registry := s.registry.register t }
  | .snapshot => { s with snapshots := s.snapshots ++ [(s.registry.list, s.registry.offers)] }

/-- Some tools are registered from the start. -/
def run (built : List Tool) (uses : List Use) : Session := uses.foldl use ⟨.ofList built, []⟩

theorem run_concat (built : List Tool) (uses : List Use) (u : Use) :
    run built (uses ++ [u]) = (run built uses).use u := by
  rw [run, List.foldl_append]
  rfl

theorem registry_run (built : List Tool) (uses : List Use) :
    (run built uses).registry = .ofList (built ++ Use.registered uses) := by
  induction uses using List.reverseRecOn with
  | nil => simp [run, Use.registered]
  | append_singleton uses u ih =>
      rw [run_concat]
      cases u with
      | register t =>
          have htools : built ++ Use.registered (uses ++ [.register t]) =
              (built ++ Use.registered uses) ++ [t] := by
            simp [Use.registered, Use.tool?]
          rw [htools, ofList_concat, ← ih]
          rfl
      | snapshot =>
          have htools : Use.registered (uses ++ [.snapshot]) = Use.registered uses := by
            simp [Use.registered, Use.tool?]
          rw [htools, ← ih]
          rfl

/-- What has been taken stays as it is. -/
theorem snapshots_prefix (built : List Tool) (uses later : List Use) :
    (run built uses).snapshots <+: (run built (uses ++ later)).snapshots := by
  induction later using List.reverseRecOn with
  | nil => simp
  | append_singleton later u ih =>
      rw [← List.append_assoc, run_concat]
      cases u with
      | register t => exact ih
      | snapshot => exact ih.trans (List.prefix_append _ _)

end Session

/-- The tools are listed by the bytes of their names, each name that has been registered once, with
what its last tool says of itself. They are offered and counted as they are listed, and those that
are listed are found. No list that has been taken changes later, and of the order in which tools are
registered only the last one of each name matters. -/
theorem listing (built : List Tool) (uses : List Use) :
    let s := Session.run built uses
    let r := s.registry
    let ts := built ++ Use.registered uses
    (r.list.map fun d => Text.bytes d.name).Pairwise (· < ·) ∧
    (∀ name, (∃ d ∈ r.list, d.name = name) ↔ ∃ t ∈ ts, t.name = name) ∧
    (∀ d, d ∈ r.list ↔ ∃ t, Tool.last? ts d.name = some t ∧ t.definition = d) ∧
    r.offers = r.list.map (fun d => ⟨"function", d⟩) ∧
    r.size = r.list.length ∧
    (∀ name, r.contains name ↔ ∃ d ∈ r.list, d.name = name) ∧
    (∀ name, r.get? name = Tool.last? ts name ∧
      (r.get? name).map (·.definition) = r.list.find? (·.name = name)) ∧
    (∀ later, s.snapshots ++ [(r.list, r.offers)] <+:
      (Session.run built (uses ++ .snapshot :: later)).snapshots) ∧
    ∀ built' uses',
      (∀ name, Tool.last? (built' ++ Use.registered uses') name = Tool.last? ts name) →
      let r' := (Session.run built' uses').registry
      r'.list = r.list ∧ r'.offers = r.offers := by
  intro s r ts
  have hr : r = .ofList ts := Session.registry_run built uses
  have hordered : r.Ordered := hr ▸ ordered_ofList ts
  have hget (name : String) : r.get? name = Tool.last? ts name := by rw [hr, get?_ofList]
  refine ⟨hordered.names_ascend, fun name => ?_, fun d => ?_, rfl, ?_,
    fun name => hordered.contains_iff, fun name => ⟨hget name, (hordered.find?_list name).symm⟩,
    fun later => ?_, fun built' uses' hlast => ?_⟩
  · rw [← hordered.contains_iff, contains, hget, Tool.isSome_last?]
  · rw [hordered.mem_list, hget]
  · rw [size, list, List.length_map]
  · have htaken : (Session.run built (uses ++ [.snapshot])).snapshots =
        s.snapshots ++ [(r.list, r.offers)] := by
      rw [Session.run_concat]
      rfl
    rw [← htaken, List.append_cons uses _ later]
    exact Session.snapshots_prefix ..
  · intro r'
    have hr' : r' = .ofList (built' ++ Use.registered uses') := Session.registry_run built' uses'
    have hsame : r' = r := by
      refine (hr' ▸ ordered_ofList _ : r'.Ordered).ext hordered fun name => ?_
      rw [hget, ← hlast, hr', get?_ofList]
    rw [hsame]
    exact ⟨rfl, rfl⟩

/-- A tool is registered again between two others, of which one has a name beyond ASCII. -/
theorem listing_again :
    let built := [.waiting "é" 1, .waiting "z" 0]
    let uses := [Use.register (.waiting "Z" 0), .snapshot, .register (.waiting "é" 2)]
    let again := [Use.register (.waiting "é" 2), .register (.waiting "z" 0),
      .register (.waiting "Z" 0)]
    let r := (Session.run built uses).registry
    r.list.map (·.name) = ["Z", "z", "é"] ∧ r.get? "é" = some (.waiting "é" 2) ∧
      (Session.run [] again).registry.list = r.list := by
  intro built uses again r
  obtain ⟨-, -, -, -, -, -, hget, -, hsame⟩ := listing built uses
  have hnames : ∀ t ∈ built ++ Use.registered uses ++ Use.registered again,
      t.name ∈ ["é", "z", "Z"] := by
    decide +kernel
  have hlast (name : String) :
      Tool.last? ([] ++ Use.registered again) name =
        Tool.last? (built ++ Use.registered uses) name := by
    by_cases hname : name ∈ ["é", "z", "Z"]
    · simp only [List.mem_cons, List.not_mem_nil, or_false] at hname
      rcases hname with rfl | rfl | rfl <;> rfl
    · have hnone {ts : List Tool}
          (hts : ts ⊆ built ++ Use.registered uses ++ Use.registered again) :
          Tool.last? ts name = none := by
        rw [← Option.not_isSome_iff_eq_none, Tool.isSome_last?]
        rintro ⟨t, ht, rfl⟩
        exact hname (hnames t (hts ht))
      rw [hnone (by simp), hnone (by simp)]
  exact ⟨by decide +kernel, (hget "é").1.trans rfl, (hsame [] again hlast).1⟩

end Registry

end ChatAgent
