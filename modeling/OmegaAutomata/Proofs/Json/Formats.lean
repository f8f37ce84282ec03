/-
# Formats keep what they write

What a value is written as describes the value (`Lossless`).  This is so for the formats of single
values, and goes from items to lists and from fields to records, if these have different names.  So
a codec that follows such a format reads what it writes (`Codec.Follows.read_write`).

The last section is about readers of JSON values, `ReadBy`: a record is read field by field, since
each field is found by its name, and a codec with a reader for a format follows the format
(`Codec.follows_ofReader`).
-/

import OmegaAutomata.Proofs.Json.Reading
import Mathlib.Data.List.Forall2

namespace OmegaAutomata

namespace Json

variable {α β : Type}

/-! ### Writing -/

/-- Whether what a value is written as has a text and describes the value. -/
structure Format.Lossless (f : Format α) : Prop where
  legible : ∀ x, f.Fits x → (f.value x).Legible
  describes : ∀ x, f.Fits x → f.Describes (f.value x) x

/-- Whether this is so for the field of a record. -/
structure Field.Lossless (f : Field α) : Prop where
  legible : ∀ x, f.Fits x → (f.value x).Legible
  describes : ∀ x, f.Fits x → f.Describes (some (f.value x)) x

/-- **A codec reads what it writes**, also with a line end after it. -/
theorem Codec.Follows.read_write {c : Codec α} {f : Format α} (h : c.Follows f)
    (hf : f.Lossless) (l : Layout) {x : α} (hx : f.Fits x) :
    c.read (c.write l x) = some x ∧ c.read (c.write l x ++ "\n") = some x := by
  obtain ⟨htext, hline⟩ := Value.spelled_render l (hf.legible x hx)
  rw [h.writes l x hx]
  exact ⟨h.reads _ _ _ htext (hf.describes x hx), h.reads _ _ _ hline (hf.describes x hx)⟩

namespace Format

theorem lossless_bool : bool.Lossless where
  legible b _ := by simp [bool, Value.Legible]
  describes _ _ := rfl

theorem lossless_integer (least greatest : Int) : (integer least greatest).Lossless where
  legible n _ := by simp [integer, Value.Legible]
  describes _ hn := ⟨rfl, hn⟩

theorem lossless_natural (greatest : Nat) : (natural greatest).Lossless where
  legible n _ := by simp [natural, Value.Legible]
  describes _ hn := ⟨rfl, hn⟩

theorem lossless_text : text.Lossless where
  legible s _ := by simp [text, Value.ofString, Value.Legible]
  describes _ _ := rfl

theorem Lossless.list {f : Format α} (h : f.Lossless) : f.list.Lossless where
  legible xs hxs := by
    show (Value.array (xs.map f.value)).Legible
    rw [Value.Legible, Value.legibleItems_iff, List.forall_mem_map]
    exact fun x hx => h.legible x (hxs x hx)
  describes xs hxs := by
    refine ⟨xs.map fun x => (f.value x, x), ?_, ?_, List.forall_mem_map.2 fun x hx =>
      h.describes x (hxs x hx)⟩
    · rw [List.map_map]
      rfl
    · rw [List.map_map]
      exact (List.map_id xs).symm

theorem Lossless.field {f : Format β} (h : f.Lossless) (name : String) (get : α → β) :
    (f.field name get).Lossless where
  legible x hx := h.legible (get x) hx
  describes x hx := ⟨_, rfl, h.describes (get x) hx⟩

theorem Lossless.fieldOr {f : Format β} (h : f.Lossless) (usual : β) (name : String)
    (get : α → β) : (f.fieldOr usual name get).Lossless where
  legible x hx := h.legible (get x) hx
  describes x hx := h.describes (get x) hx

/-- A member is found by its name. -/
theorem valuesOf_of_mem {members : List (String × Value)} {k : String} {v : Value}
    (h : (members.map Prod.fst).Nodup) (hv : (k, v) ∈ members) : valuesOf k members = [v] := by
  induction members with
  | nil => exact absurd hv List.not_mem_nil
  | cons m members ih =>
    obtain ⟨hm, h⟩ := List.nodup_cons.1 h
    rcases List.mem_cons.1 hv with rfl | hv
    · have hrest : members.filter (fun m => m.1 = k) = [] := by
        refine List.filter_eq_nil_iff.2 fun m hmem heq => hm ?_
        exact List.mem_map.2 ⟨m, hmem, of_decide_eq_true heq⟩
      rw [valuesOf, List.filter_cons_of_pos (by simp), hrest]
      rfl
    · have hne : m.1 ≠ k := fun heq => hm (heq ▸ List.mem_map_of_mem (f := Prod.fst) hv)
      rw [valuesOf, List.filter_cons_of_neg (by simpa using hne)]
      exact ih h hv

/-- **A record is described by what it is written as**: each field is found once. -/
theorem lossless_record {fields : List (Field α)} (hnames : (fields.map Field.name).Nodup)
    (h : fields.Forall Field.Lossless) : (record fields).Lossless where
  legible x hx := by
    show (Value.ofFields (fields.map fun f => (f.name, f.value x))).Legible
    rw [Value.ofFields, Value.Legible, Value.legibleMembers_iff]
    simp only [List.forall_mem_map]
    exact fun f hf => ⟨rfl, (List.forall_iff_forall_mem.1 h f hf).legible x (hx f hf)⟩
  describes x hx := by
    refine ⟨_, rfl, fun f hf => ⟨some (f.value x), ?_,
      (List.forall_iff_forall_mem.1 h f hf).describes x (hx f hf)⟩⟩
    refine valuesOf_of_mem ?_ (List.mem_map_of_mem hf)
    rw [List.map_map]
    exact hnames

end Format

/-! ### Reading -/

/-- Whether all that describes a value is read as it. -/
def Format.ReadBy (f : Format α) (read : Value → Option α) : Prop :=
  ∀ v x, f.Describes v x → read v = some x

/-- **A codec with a reader for a format** follows the format. -/
theorem Codec.follows_ofReader {f : Format α} {read : Value → Option α} (h : f.ReadBy read) :
    (ofReader f read).Follows f where
  writes _ _ _ := rfl
  reads text v x htext hx := by
    show (do read (← Value.ofText? text)) = some x
    rw [Value.ofText?_of_spelled htext]
    exact h v x hx

namespace Format

theorem readBy_bool : bool.ReadBy Value.bool? := by
  rintro _ b rfl
  rfl

theorem readBy_integer (least greatest : Int) :
    (integer least greatest).ReadBy (Value.integer? least greatest) := by
  rintro _ n ⟨rfl, hn⟩
  exact if_pos hn

theorem readBy_natural (greatest : Nat) :
    (natural greatest).ReadBy fun v => (v.integer? 0 greatest).map Int.toNat := by
  rintro _ n ⟨rfl, hn⟩
  have hrange : (0 : Int) ≤ n ∧ (n : Int) ≤ greatest := ⟨Int.natCast_nonneg n, Int.ofNat_le.2 hn⟩
  dsimp only
  rw [Value.integer?, if_pos hrange]
  rfl

theorem readBy_text : text.ReadBy Value.text? := by
  rintro _ s rfl
  rfl

theorem ReadBy.list {f : Format α} {read : Value → Option α} (h : f.ReadBy read) :
    f.list.ReadBy (Value.list? read) := by
  rintro _ _ ⟨items, rfl, rfl, hdescribes⟩
  show (items.map Prod.fst).mapM read = some (items.map Prod.snd)
  induction items with
  | nil => rfl
  | cons i items ih =>
    obtain ⟨hi, hitems⟩ := List.forall_mem_cons.1 hdescribes
    rw [List.map_cons, List.mapM_cons, h i.1 i.2 hi, ih hitems]
    rfl

end Format

namespace Value

variable {members : List (String × Value)}

theorem map_filter_ofFields (k : String) : ((members.map fun (k, v) => (some k, v)).filter
    fun m => m.1 = some k).map Prod.snd = valuesOf k members := by
  rw [List.filter_map, List.map_map]
  exact congrArg (List.map Prod.snd) (List.filter_congr fun m _ => by simp)

/-- The fields of an object are found by their names if none of them stands there twice. -/
theorem fields?_ofFields {names : List String}
    (h : ∀ k ∈ names, (valuesOf k members).length ≤ 1) :
    (ofFields members).fields? names = some (names.map fun k => (valuesOf k members).head?) := by
  have hnamed : (members.map fun (k, v) => (some k, v)).all (fun m => m.1.isSome) = true := by
    simp
  have honce : names.all (fun k => ((members.map fun (k, v) => (some k, v)).filter
      fun m => m.1 = some k).length ≤ 1) = true := by
    refine List.all_eq_true.2 fun k hk => decide_eq_true ?_
    rw [← List.length_map Prod.snd, map_filter_ofFields]
    exact h k hk
  rw [ofFields, fields?, hnamed, honce]
  refine congrArg some (List.map_congr_left fun k _ => ?_)
  rw [← List.head?_filter, ← List.head?_map, map_filter_ofFields]

end Value

/-- **A record is read by the names of its fields**: what is found describes them. -/
theorem Format.fields?_of_describes {fields : List (Field α)} {v : Value} {x : α}
    (h : (record fields).Describes v x) : ∃ found, v.fields? (fields.map Field.name) = some found ∧
      List.Forall₂ (fun f w => f.Describes w x) fields found := by
  obtain ⟨members, rfl, hfields⟩ := h
  refine ⟨_, Value.fields?_ofFields (List.forall_mem_map.2 fun f hf => ?_), ?_⟩
  · obtain ⟨w, hw, -⟩ := hfields f hf
    rw [hw]
    cases w with
    | none => exact Nat.zero_le 1
    | some v => exact Nat.le_refl 1
  · rw [List.map_map, List.forall₂_map_right_iff, List.forall₂_same]
    intro f hf
    obtain ⟨w, hw, hdescribes⟩ := hfields f hf
    rwa [Function.comp, hw, Option.head?_toList]

end Json

end OmegaAutomata
