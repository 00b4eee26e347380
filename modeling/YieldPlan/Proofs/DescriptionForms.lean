import Mathlib.Data.List.Forall2
import Mathlib.Data.List.Nodup
import Mathlib.Data.List.Perm.Basic
import YieldPlan.Description.Encode
import YieldPlan.Proofs.JsonText

/-! A description can be written in many ways: the fields of an object may come in any order and
among others that are not known, fields with a default may be left out, and an array of the values
may stand for an object. The forms of a description are given here apart from the code that reads
them. Reading finds a description exactly in its forms, and writing produces one of them. -/

namespace YieldPlan

def writtenField (name : String) (slot : Option Json) : List (Literal × Json) :=
  slot.toList.map fun j => (some name, j)

def writtenFields (names : List String) (slots : List (Option Json)) : List (Literal × Json) :=
  (List.zipWith writtenField names slots).flatten

/-- The value is a record with these fields. As an object it has the fields that are not left out,
in any order, and any others with names of their own. As an array it has the values in order, and
only the last ones can be left out. -/
inductive Json.IsRecord (names : List String) (slots : List (Option Json)) : Json → Prop where
  | object {fields others : List (Literal × Json)} :
      fields.Perm (writtenFields names slots ++ others) →
      (∀ f ∈ others, ∃ name, f.1 = some name ∧ name ∉ names) →
      Json.IsRecord names slots (.object fields)
  | array {items : List Json} {missing : Nat} :
      slots = items.map some ++ List.replicate missing none →
      Json.IsRecord names slots (.array items)

section Records

variable {names : List String} {slots : List (Option Json)} {fields others : List (Literal × Json)}
  {name : String} {slot : Option Json}

@[simp] theorem writtenFields_cons : writtenFields (name :: names) (slot :: slots) =
    writtenField name slot ++ writtenFields names slots := rfl

theorem filter_writtenField (n : String) :
    (writtenField n slot).filter (fun f => f.1 == some name) =
      if n = name then writtenField n slot else [] := by
  cases slot <;> simp [writtenField, List.filter_cons]

theorem name_of_mem_writtenField {f : Literal × Json} (h : f ∈ writtenField name slot) :
    f.1 = some name := by
  obtain ⟨j, -, rfl⟩ := List.mem_map.mp h
  rfl

theorem name_of_mem_writtenFields {f : Literal × Json} (h : f ∈ writtenFields names slots) :
    ∃ name ∈ names, f.1 = some name := by
  induction names generalizing slots with
  | nil => cases h
  | cons n ns ih =>
    cases slots with
    | nil => cases h
    | cons s ss =>
      rw [writtenFields_cons, List.mem_append] at h
      rcases h with h | h
      · exact ⟨n, List.mem_cons_self, name_of_mem_writtenField h⟩
      · obtain ⟨m, hm, hf⟩ := ih h
        exact ⟨m, List.mem_cons_of_mem n hm, hf⟩

theorem filter_writtenFields (hnames : names.Nodup) (h : (name, slot) ∈ names.zip slots) :
    (writtenFields names slots).filter (fun f => f.1 == some name) = writtenField name slot := by
  induction names generalizing slots with
  | nil => cases h
  | cons n ns ih =>
    cases slots with
    | nil => cases h
    | cons s ss =>
      obtain ⟨hn, hns⟩ := List.nodup_cons.mp hnames
      rw [writtenFields_cons, List.filter_append, filter_writtenField]
      rcases List.mem_cons.mp h with heq | hmem
      · obtain ⟨rfl, rfl⟩ := Prod.mk.inj heq
        have hrest : (writtenFields ns ss).filter (fun f => f.1 == some name) = [] := by
          refine List.filter_eq_nil_iff.mpr fun f hf => ?_
          obtain ⟨m, hm, hfm⟩ := name_of_mem_writtenFields hf
          simp only [hfm, beq_iff_eq, Option.some.injEq]
          rintro rfl
          exact hn hm
        rw [hrest, if_pos rfl, List.append_nil]
      · have hne : n ≠ name := fun heq => hn (heq ▸ (List.of_mem_zip hmem).1)
        rw [if_neg hne, List.nil_append, ih hns hmem]

theorem field?_eq_some : field? fields name = some slot ↔
    fields.filter (fun f => f.1 == some name) = writtenField name slot := by
  have hnames : ∀ f ∈ fields.filter (fun f => f.1 == some name), f.1 = some name :=
    fun f hf => eq_of_beq (List.mem_filter.mp hf).2
  rw [field?]
  generalize fields.filter (fun f => f.1 == some name) = found at hnames
  match found with
  | [] => cases slot <;> simp [writtenField]
  | [f] =>
    have hf := hnames f List.mem_cons_self
    cases slot <;> simp [writtenField, Prod.ext_iff, hf]
  | f :: g :: rest => cases slot <;> simp [writtenField]

theorem mapM_eq_some_iff {α β : Type} {f : α → Option β} {l : List α} {ys : List β} :
    l.mapM f = some ys ↔ List.Forall₂ (fun x y => f x = some y) l ys := by
  induction l generalizing ys with
  | nil => simp [eq_comm]
  | cons x l ih =>
    simp only [List.mapM_cons, Option.pure_def, Option.bind_eq_bind, Option.bind_eq_some_iff,
      Option.some.injEq, List.forall₂_cons_left_iff, ih]
    constructor
    · rintro ⟨y, hy, zs, hzs, rfl⟩
      exact ⟨y, zs, hy, hzs, rfl⟩
    · rintro ⟨y, zs, hy, hzs, rfl⟩
      exact ⟨y, hy, zs, hzs, rfl⟩

theorem filter_known_perm (hnames : names.Nodup)
    (h : List.Forall₂ (fun name slot => field? fields name = some slot) names slots) :
    (fields.filter fun f => f.1 ∈ names.map some).Perm (writtenFields names slots) := by
  induction h with
  | nil => simp [writtenFields]
  | @cons n s ns ss hs _ ih =>
    obtain ⟨hn, hns⟩ := List.nodup_cons.mp hnames
    rw [writtenFields_cons, ← field?_eq_some.mp hs]
    refine (List.filter_append_perm (fun f => f.1 == some n) _).symm.trans ?_
    rw [List.filter_filter, List.filter_filter]
    have hfirst : ∀ f ∈ fields,
        (f.1 == some n && decide (f.1 ∈ (n :: ns).map some)) = (f.1 == some n) := by
      intro f _
      by_cases hf : f.1 = some n <;> simp [hf]
    have hrest : ∀ f ∈ fields, (!(f.1 == some n) && decide (f.1 ∈ (n :: ns).map some)) =
        decide (f.1 ∈ ns.map some) := by
      intro f _
      by_cases hf : f.1 = some n <;> simp [hf, hn]
    rw [List.filter_congr hfirst, List.filter_congr hrest]
    exact (ih hns).append_left _

theorem mapM_field?_eq_some (hnames : names.Nodup) :
    names.mapM (field? fields) = some slots ↔ names.length = slots.length ∧
      ∃ others, fields.Perm (writtenFields names slots ++ others) ∧
        ∀ f ∈ others, f.1 ∉ names.map some := by
  rw [mapM_eq_some_iff]
  constructor
  · intro h
    refine ⟨h.length_eq, fields.filter (fun f => !decide (f.1 ∈ names.map some)), ?_, ?_⟩
    · exact (List.filter_append_perm (fun f => decide (f.1 ∈ names.map some)) fields).symm.trans
        ((filter_known_perm hnames h).append_right _)
    · intro f hf
      simpa using List.of_mem_filter hf
  · rintro ⟨hlen, others, hperm, hothers⟩
    refine List.forall₂_iff_zip.mpr ⟨hlen, fun {name slot} hmem => field?_eq_some.mpr ?_⟩
    have hnone : others.filter (fun f => f.1 == some name) = [] := by
      refine List.filter_eq_nil_iff.mpr fun f hf heq => hothers f hf ?_
      rw [eq_of_beq heq]
      exact List.mem_map_of_mem (List.of_mem_zip hmem).1
    have hfound := hperm.filter (fun f => f.1 == some name)
    rw [List.filter_append, hnone, List.append_nil, filter_writtenFields hnames hmem] at hfound
    cases slot with
    | none => exact List.perm_nil.mp hfound
    | some j => exact List.perm_singleton.mp hfound

theorem Json.IsRecord.literals (h : (Json.object fields).IsRecord names slots) :
    fields.all fun f => f.1.isSome := by
  cases h with
  | object hperm hothers =>
    refine List.all_eq_true.mpr fun f hf => ?_
    rcases List.mem_append.mp (hperm.mem_iff.mp hf) with hwritten | hother
    · obtain ⟨n, -, hn⟩ := name_of_mem_writtenFields hwritten
      rw [hn, Option.isSome_some]
    · obtain ⟨n, hn, -⟩ := hothers f hother
      rw [hn, Option.isSome_some]

theorem mapM_field?_iff_isRecord (hnames : names.Nodup)
    (hliterals : fields.all fun f => f.1.isSome) : names.mapM (field? fields) = some slots ↔
      names.length = slots.length ∧ (Json.object fields).IsRecord names slots := by
  rw [mapM_field?_eq_some hnames]
  refine and_congr_right fun _ => ⟨?_, ?_⟩
  · rintro ⟨others, hperm, hothers⟩
    refine .object hperm fun f hf => ?_
    have hmem := hperm.mem_iff.mpr (List.mem_append_right _ hf)
    obtain ⟨n, hn⟩ := Option.isSome_iff_exists.mp (List.all_eq_true.mp hliterals f hmem)
    exact ⟨n, hn, fun hknown => hothers f hf (hn ▸ List.mem_map_of_mem hknown)⟩
  · rintro @⟨_, others, hperm, hothers⟩
    refine ⟨others, hperm, fun f hf hknown => ?_⟩
    obtain ⟨n, hn, hunknown⟩ := hothers f hf
    obtain ⟨m, hm, hmn⟩ := List.mem_map.mp hknown
    exact hunknown (Option.some.inj (hmn.trans hn) ▸ hm)

theorem recordFields_eq_some (hnames : names.Nodup) {j : Json} :
    recordFields names j = some slots ↔ names.length = slots.length ∧ j.IsRecord names slots := by
  cases j with
  | object fields =>
    rw [recordFields, Option.ite_none_right_eq_some]
    constructor
    · rintro ⟨hliterals, h⟩
      exact (mapM_field?_iff_isRecord hnames hliterals).mp h
    · intro h
      exact ⟨h.2.literals, (mapM_field?_iff_isRecord hnames h.2.literals).mpr h⟩
  | array items =>
    rw [recordFields, Option.ite_none_right_eq_some, Option.some_inj]
    constructor
    · rintro ⟨hle, rfl⟩
      exact ⟨by simp [hle], .array rfl⟩
    · rintro ⟨hlen, hrecord⟩
      cases hrecord with
      | array hslots =>
        rw [hslots] at hlen ⊢
        simp only [List.length_append, List.length_map, List.length_replicate] at hlen
        exact ⟨by omega, by rw [hlen, Nat.add_sub_cancel_left]⟩
  | _ => exact ⟨fun h => (by cases h), fun ⟨_, h⟩ => (by cases h)⟩

theorem isRecord_array {items : List Json} : (Json.array items).IsRecord names slots ↔
    ∃ missing, slots = items.map some ++ List.replicate missing none := by
  constructor
  · rintro ⟨⟩
    exact ⟨_, ‹_›⟩
  · rintro ⟨missing, h⟩
    exact .array h

theorem items_of_slot {items : List Json} {missing : Nat}
    (h : [slot] = items.map some ++ List.replicate missing none) : items = slot.toList := by
  cases items with
  | nil =>
    have hslot : slot = none := List.eq_of_mem_replicate (h ▸ List.mem_singleton_self slot)
    rw [hslot, Option.toList_none]
  | cons j rest =>
    obtain ⟨rfl, hrest⟩ := List.cons.inj h
    have hnone : rest = [] := (by simpa using hrest.symm : rest = [] ∧ missing = 0).1
    rw [hnone, Option.toList_some]

end Records

/-- A slot with a value of some form. It can only be left out if it has the default value. -/
def SlotHas (isDefault : Prop) (form : Json → Prop) : Option Json → Prop
  | some j => form j
  | none => isDefault

def Json.Lists {α : Type} (form : α → Json → Prop) (xs : List α) (j : Json) : Prop :=
  ∃ items, j = .array items ∧ List.Forall₂ form xs items

section Values

variable {α : Type} {j : Json} {slot : Option Json}

theorem decodeText_eq_some {s : String} : decodeText j = some s ↔ j = .text s := by
  cases j <;> simp [decodeText, Json.text]

@[simp] theorem decodeText_text (s : String) : decodeText (.text s) = some s := rfl

theorem decodeOption_eq_some {s : Option String} :
    decodeOption j = some s ↔ j = encodeOption s := by
  rcases j with - | - | - | (- | t) | - | - <;> cases s <;>
    simp [decodeOption, encodeOption, Json.text]

theorem decodeList_eq_some {item : Json → Option α} {form : α → Json → Prop}
    (hitem : ∀ j x, item j = some x ↔ form x j) {xs : List α} :
    decodeList item j = some xs ↔ j.Lists form xs := by
  cases j with
  | array items =>
    rw [decodeList, mapM_eq_some_iff]
    simp only [Json.Lists, Json.array.injEq, exists_eq_left', hitem]
    exact ⟨List.Forall₂.flip, List.Forall₂.flip⟩
  | _ => simp [decodeList, Json.Lists]

theorem lists_text {names : List String} :
    j.Lists (fun s item => item = .text s) names ↔ j = encodeNames names := by
  have hitems : ∀ items, List.Forall₂ (fun s item => item = Json.text s) names items ↔
      names.map Json.text = items := by
    intro items
    rw [← List.forall₂_eq_eq_eq, List.forall₂_map_left_iff]
    simp only [eq_comm]
  simp only [Json.Lists, hitems, exists_eq_right', encodeNames]

theorem decodeOr_eq_some {decode : Json → Option α} {missing x : α} {form : Json → Prop}
    (hform : ∀ j, decode j = some x ↔ form j) :
    decodeOr missing decode slot = some x ↔ SlotHas (x = missing) form slot := by
  cases slot with
  | none => exact Option.some_inj.trans eq_comm
  | some j => exact hform j

theorem decodeOr_option {s : Option String} : decodeOr none decodeOption slot = some s ↔
    SlotHas (s = none) (· = encodeOption s) slot :=
  decodeOr_eq_some fun _ => decodeOption_eq_some

end Values

namespace OperationDesc

def tag : OperationDesc → String
  | .access kind _ => kind.name
  | .local => "local"
  | .debug => "debug"
  | .call _ _ => "call"

/-- The fields next to the tag. -/
def fieldNames : OperationDesc → List String
  | .access _ _ => ["loc"]
  | .call _ _ => ["callee", "arg"]
  | .local | .debug => []

def HasSlots : OperationDesc → List (Option Json) → Prop
  | .access _ loc, slots => ∃ slot, slots = [slot] ∧
      SlotHas (loc = none) (· = encodeOption loc) slot
  | .call callee arg, slots => ∃ slot, slots = [some (.text callee), slot] ∧
      SlotHas (arg = none) (· = encodeOption arg) slot
  | .local, slots | .debug, slots => slots = []

/-- An operation is an object with its tag as a further field, or an array in which the tag comes
first. In an array its first field is never left out. -/
inductive IsWritten (o : OperationDesc) : Json → Prop where
  | object {fields : List (Literal × Json)} {slots : List (Option Json)} : o.HasSlots slots →
      (Json.object fields).IsRecord ("op" :: o.fieldNames) (some (.text o.tag) :: slots) →
      IsWritten o (.object fields)
  | array {items : List Json} {slots : List (Option Json)} : o.HasSlots slots →
      (Json.array items).IsRecord o.fieldNames slots → slots.head? ≠ some none →
      IsWritten o (.array (.text o.tag :: items))

/-- Everything in an operation has to be well-formed and not nested too deeply, also in fields that
are not known. -/
def Form (o : OperationDesc) (j : Json) : Prop :=
  j.isStrict (nestingLimit - operationDepth) ∧ o.IsWritten j

variable {o : OperationDesc} {slots : List (Option Json)} {tag : String}

theorem HasSlots.length_eq (h : o.HasSlots slots) : o.fieldNames.length = slots.length := by
  cases o with
  | access | call =>
    obtain ⟨slot, rfl, -⟩ := h
    rfl
  | _ =>
    rw [show slots = [] from h]
    rfl

theorem nodup_fieldNames (o : OperationDesc) : ("op" :: o.fieldNames).Nodup := by
  cases o <;> simp [fieldNames]

theorem ofName?_eq_some {kind : Access} : Access.ofName? tag = some kind ↔ tag = kind.name := by
  constructor
  · intro h
    exact (eq_of_beq (List.find?_some (p := fun a : Access => a.name == tag) h)).symm
  · rintro rfl
    exact Access.ofName?_name kind

theorem name_ne (kind : Access) :
    kind.name ≠ "local" ∧ kind.name ≠ "debug" ∧ kind.name ≠ "call" := by
  cases kind <;> decide

theorem decodeObject_eq_some {fields : List (Literal × Json)} :
    decodeObject tag fields = some o ↔ tag = o.tag ∧
      ∃ slots, o.HasSlots slots ∧ o.fieldNames.mapM (field? fields) = some slots := by
  simp only [mapM_eq_some_iff]
  constructor
  · intro h
    unfold decodeObject at h
    split_ifs at h with hlocal hdebug hcall
    · cases h
      exact ⟨hlocal, [], rfl, .nil⟩
    · cases h
      exact ⟨hdebug, [], rfl, .nil⟩
    · simp only [Option.bind_eq_bind, Option.bind_eq_some_iff, decodeText_eq_some, decodeOr_option,
        Option.pure_def, Option.some.injEq] at h
      obtain ⟨_, hcallee, slot, hslot, _, rfl, _, rfl, arg, harg, rfl⟩ := h
      exact ⟨hcall, _, ⟨slot, rfl, harg⟩, .cons hcallee (.cons hslot .nil)⟩
    · simp only [Option.bind_eq_bind, Option.bind_eq_some_iff, ofName?_eq_some, decodeOr_option,
        Option.pure_def, Option.some.injEq] at h
      obtain ⟨kind, hkind, slot, hslot, loc, hloc, rfl⟩ := h
      exact ⟨hkind, _, ⟨slot, rfl, hloc⟩, .cons hslot .nil⟩
  · rintro ⟨rfl, slots, hslots, hfound⟩
    cases o with
    | access kind loc =>
      obtain ⟨slot, rfl, hloc⟩ := hslots
      obtain ⟨hlocal, hdebug, hcall⟩ := name_ne kind
      obtain ⟨hslot, -⟩ := List.forall₂_cons.mp hfound
      simp [decodeObject, OperationDesc.tag, hlocal, hdebug, hcall, Access.ofName?_name, hslot,
        decodeOr_option.mpr hloc]
    | call callee arg =>
      obtain ⟨slot, rfl, harg⟩ := hslots
      obtain ⟨hcallee, hrest⟩ := List.forall₂_cons.mp hfound
      obtain ⟨hslot, -⟩ := List.forall₂_cons.mp hrest
      simp [decodeObject, OperationDesc.tag, hcallee, hslot, decodeOr_option.mpr harg]
    | _ => rfl

theorem decodeArray_eq_some {items : List Json} :
    decodeArray tag items = some o ↔ tag = o.tag ∧
      ∃ slots, o.HasSlots slots ∧ (Json.array items).IsRecord o.fieldNames slots ∧
        slots.head? ≠ some none := by
  simp only [isRecord_array]
  constructor
  · intro h
    unfold decodeArray at h
    split_ifs at h with hlocal hempty hdebug hempty hcall
    · cases h
      exact ⟨hlocal, [], rfl, ⟨0, by simpa using hempty⟩, by simp⟩
    · cases h
      exact ⟨hdebug, [], rfl, ⟨0, by simpa using hempty⟩, by simp⟩
    · split at h
      · obtain ⟨callee, hcallee, ⟨⟩⟩ := Option.bind_eq_some_iff.mp h
        rw [decodeText_eq_some.mp hcallee]
        exact ⟨hcall, _, ⟨none, rfl, rfl⟩, ⟨1, rfl⟩, by simp⟩
      · obtain ⟨callee, hcallee, h⟩ := Option.bind_eq_some_iff.mp h
        obtain ⟨arg, harg, ⟨⟩⟩ := Option.bind_eq_some_iff.mp h
        rw [decodeText_eq_some.mp hcallee]
        exact ⟨hcall, _, ⟨some _, rfl, decodeOption_eq_some.mp harg⟩, ⟨0, rfl⟩, by simp⟩
      · cases h
    · obtain ⟨kind, hkind, h⟩ := Option.bind_eq_some_iff.mp h
      split at h
      · obtain ⟨loc, hloc, ⟨⟩⟩ := Option.bind_eq_some_iff.mp h
        exact ⟨ofName?_eq_some.mp hkind, _, ⟨some _, rfl, decodeOption_eq_some.mp hloc⟩,
          ⟨0, rfl⟩, by simp⟩
      · cases h
  · rintro ⟨rfl, slots, hslots, ⟨missing, hitems⟩, hfirst⟩
    cases o with
    | access kind loc =>
      obtain ⟨slot, rfl, hloc⟩ := hslots
      obtain ⟨hlocal, hdebug, hcall⟩ := name_ne kind
      rw [items_of_slot hitems]
      cases slot with
      | none => exact absurd rfl hfirst
      | some j =>
        simp [decodeArray, OperationDesc.tag, hlocal, hdebug, hcall, Access.ofName?_name,
          decodeOption_eq_some.mpr hloc]
    | call callee arg =>
      obtain ⟨slot, rfl, harg⟩ := hslots
      cases items with
      | nil =>
        cases List.eq_of_mem_replicate (hitems ▸ List.mem_cons_self : some _ ∈ _)
      | cons j rest =>
        obtain ⟨hcallee, hrest⟩ := List.cons.inj hitems
        obtain rfl := Option.some.inj hcallee
        rw [items_of_slot hrest]
        cases slot with
        | none =>
          obtain rfl : arg = none := harg
          rfl
        | some j =>
          simp [decodeArray, OperationDesc.tag, decodeOption_eq_some.mpr harg]
    | _ =>
      obtain rfl : slots = [] := hslots
      obtain ⟨rfl, -⟩ : items = [] ∧ missing = 0 := by simpa using hitems.symm
      rfl

theorem literals_of_fieldsStrict {levels : Nat} {fields : List (Literal × Json)}
    (h : Json.fieldsStrict levels fields) : fields.all fun f => f.1.isSome := by
  induction fields with
  | nil => rfl
  | cons f fields ih =>
    simp only [Json.fieldsStrict, Bool.and_eq_true] at h
    rw [List.all_cons, h.1.1, ih h.2, Bool.and_self]

theorem decode_eq_some {j : Json} : decode j = some o ↔ o.Form j := by
  unfold decode
  rw [Option.ite_none_right_eq_some]
  refine and_congr_right fun hstrict => ?_
  match j with
  | .object fields =>
    simp only [Json.isStrict, Bool.and_eq_true] at hstrict
    have hliterals := literals_of_fieldsStrict hstrict.2
    constructor
    · intro h
      obtain ⟨slot, hop, hfound⟩ := Option.bind_eq_some_iff.mp h
      obtain ⟨t, rfl, htagged⟩ := Option.bind_eq_some_iff.mp hfound
      obtain ⟨tag, htag, hread⟩ := Option.bind_eq_some_iff.mp htagged
      obtain rfl := decodeText_eq_some.mp htag
      obtain ⟨rfl, slots, hslots, hmapM⟩ := decodeObject_eq_some.mp hread
      have hall := mapM_eq_some_iff.mpr (.cons hop (mapM_eq_some_iff.mp hmapM))
      exact .object hslots ((mapM_field?_iff_isRecord o.nodup_fieldNames hliterals).mp hall).2
    · rintro @⟨_, slots, hslots, hrecord⟩
      have hlen : ("op" :: o.fieldNames).length = (some (Json.text o.tag) :: slots).length :=
        congrArg Nat.succ hslots.length_eq
      have hall := (mapM_field?_iff_isRecord o.nodup_fieldNames hliterals).mpr ⟨hlen, hrecord⟩
      obtain ⟨hop, hrest⟩ := List.forall₂_cons.mp (mapM_eq_some_iff.mp hall)
      simp only [hop, Option.bind_eq_bind, Option.bind_some, decodeText_text]
      exact decodeObject_eq_some.mpr ⟨rfl, _, hslots, mapM_eq_some_iff.mpr hrest⟩
  | .array (t :: items) =>
    constructor
    · intro h
      obtain ⟨tag, htag, hread⟩ := Option.bind_eq_some_iff.mp h
      obtain rfl := decodeText_eq_some.mp htag
      obtain ⟨rfl, slots, hslots, hrecord, hfirst⟩ := decodeArray_eq_some.mp hread
      exact .array hslots hrecord hfirst
    · rintro ⟨⟩
      exact decodeArray_eq_some.mpr ⟨rfl, _, ‹_›, ‹_›, ‹_›⟩
  | .array [] | .null | .bool _ | .number _ | .string _ =>
    exact ⟨fun h => (by cases h), fun h => (by cases h)⟩

end OperationDesc

def BlockDesc.Form (b : BlockDesc) (j : Json) : Prop :=
  ∃ ops succs, j.IsRecord ["name", "ops", "succs"] [some (.text b.name), ops, succs] ∧
    SlotHas (b.ops = []) (Json.Lists OperationDesc.Form b.ops) ops ∧
    SlotHas (b.succs = []) (· = encodeNames b.succs) succs

def ProcedureDesc.Form (p : ProcedureDesc) (j : Json) : Prop :=
  ∃ blocks, j.IsRecord ["name", "blocks"] [some (.text p.name), some blocks] ∧
    blocks.Lists BlockDesc.Form p.blocks

def Description.Form (d : Description) (j : Json) : Prop :=
  ∃ main procedures, j.IsRecord ["main", "procedures"] [main, some procedures] ∧
    SlotHas (d.main = "main") (· = .text d.main) main ∧
    procedures.Lists ProcedureDesc.Form d.procedures

theorem decodeOr_names {slot : Option Json} {names : List String} :
    decodeOr [] (decodeList decodeText) slot = some names ↔
      SlotHas (names = []) (· = encodeNames names) slot :=
  decodeOr_eq_some fun _ => (decodeList_eq_some fun _ _ => decodeText_eq_some).trans lists_text

theorem decodeOr_ops {slot : Option Json} {ops : List OperationDesc} :
    decodeOr [] (decodeList OperationDesc.decode) slot = some ops ↔
      SlotHas (ops = []) (Json.Lists OperationDesc.Form ops) slot :=
  decodeOr_eq_some fun _ => decodeList_eq_some fun _ _ => OperationDesc.decode_eq_some

theorem BlockDesc.decode_eq_some {j : Json} {b : BlockDesc} : decode j = some b ↔ b.Form j := by
  constructor
  · intro h
    obtain ⟨slots, hslots, hread⟩ := Option.bind_eq_some_iff.mp h
    obtain ⟨-, hrecord⟩ := (recordFields_eq_some (by decide)).mp hslots
    split at hread
    · simp only [Option.bind_eq_bind, Option.bind_eq_some_iff, decodeText_eq_some, decodeOr_ops,
        decodeOr_names, Option.pure_def, Option.some.injEq] at hread
      obtain ⟨_, rfl, _, rfl, ops, hops, succs, hsuccs, rfl⟩ := hread
      exact ⟨_, _, hrecord, hops, hsuccs⟩
    · cases hread
  · rintro ⟨ops, succs, hrecord, hops, hsuccs⟩
    have hslots := (recordFields_eq_some (by decide)).mpr ⟨rfl, hrecord⟩
    simp [decode, hslots, decodeOr_ops.mpr hops, decodeOr_names.mpr hsuccs]

theorem decodeList_blocks {j : Json} {blocks : List BlockDesc} :
    decodeList BlockDesc.decode j = some blocks ↔ j.Lists BlockDesc.Form blocks :=
  decodeList_eq_some fun _ _ => BlockDesc.decode_eq_some

theorem ProcedureDesc.decode_eq_some {j : Json} {p : ProcedureDesc} :
    decode j = some p ↔ p.Form j := by
  constructor
  · intro h
    obtain ⟨slots, hslots, hread⟩ := Option.bind_eq_some_iff.mp h
    obtain ⟨-, hrecord⟩ := (recordFields_eq_some (by decide)).mp hslots
    split at hread
    · simp only [Option.bind_eq_bind, Option.bind_eq_some_iff, decodeText_eq_some,
        decodeList_blocks, Option.pure_def, Option.some.injEq] at hread
      obtain ⟨_, rfl, _, rfl, _, rfl, blocks, hblocks, rfl⟩ := hread
      exact ⟨_, hrecord, hblocks⟩
    · cases hread
  · rintro ⟨blocks, hrecord, hblocks⟩
    have hslots := (recordFields_eq_some (by decide)).mpr ⟨rfl, hrecord⟩
    simp [decode, hslots, decodeList_blocks.mpr hblocks]

theorem decodeList_procedures {j : Json} {procedures : List ProcedureDesc} :
    decodeList ProcedureDesc.decode j = some procedures ↔
      j.Lists ProcedureDesc.Form procedures :=
  decodeList_eq_some fun _ _ => ProcedureDesc.decode_eq_some

theorem decodeOr_main {slot : Option Json} {main : String} :
    decodeOr "main" decodeText slot = some main ↔
      SlotHas (main = "main") (· = .text main) slot :=
  decodeOr_eq_some fun _ => decodeText_eq_some

theorem Description.decode_eq_some {j : Json} {d : Description} : decode j = some d ↔ d.Form j := by
  constructor
  · intro h
    obtain ⟨slots, hslots, hread⟩ := Option.bind_eq_some_iff.mp h
    obtain ⟨-, hrecord⟩ := (recordFields_eq_some (by decide)).mp hslots
    split at hread
    · simp only [Option.bind_eq_bind, Option.bind_eq_some_iff, decodeOr_main,
        decodeList_procedures, Option.pure_def, Option.some.injEq] at hread
      obtain ⟨main, hmain, _, rfl, procedures, hprocedures, rfl⟩ := hread
      exact ⟨_, _, hrecord, hmain, hprocedures⟩
    · cases hread
  · rintro ⟨main, procedures, hrecord, hmain, hprocedures⟩
    have hslots := (recordFields_eq_some (by decide)).mpr ⟨rfl, hrecord⟩
    simp [decode, hslots, decodeOr_main.mpr hmain, decodeList_procedures.mpr hprocedures]

theorem Json.isRecord_record {names : List String} {slots : List (Option Json)}
    {fields : List (String × Json)}
    (h : writtenFields names slots = fields.map fun f => (some f.1, f.2)) :
    (Json.record fields).IsRecord names slots := by
  have hperm : (fields.map fun f => (some f.1, f.2)).Perm (writtenFields names slots ++ []) := by
    rw [List.append_nil, h]
  exact .object hperm fun f hf => (by cases hf)

theorem Json.lists_map {α : Type} {form : α → Json → Prop} {encode : α → Json} {xs : List α}
    (h : ∀ x, form x (encode x)) : (Json.array (xs.map encode)).Lists form xs :=
  ⟨_, rfl, List.forall₂_map_right_iff.mpr (List.forall₂_same.mpr fun x _ => h x)⟩

theorem isStrict_encodeOption (s : Option String) {levels : Nat} :
    (encodeOption s).isStrict levels := by
  cases s <;> rfl

theorem OperationDesc.form_encode (o : OperationDesc) : o.Form o.encode := by
  cases o with
  | access kind loc =>
    refine ⟨?_, .object ⟨some _, rfl, rfl⟩ (Json.isRecord_record rfl)⟩
    simp [encode, Json.record, Json.text, Json.isStrict, Json.fieldsStrict, isStrict_encodeOption,
      nestingLimit, operationDepth]
  | call callee arg =>
    refine ⟨?_, .object ⟨some _, rfl, rfl⟩ (Json.isRecord_record rfl)⟩
    simp [encode, Json.record, Json.text, Json.isStrict, Json.fieldsStrict, isStrict_encodeOption,
      nestingLimit, operationDepth]
  | _ => exact ⟨rfl, .object rfl (Json.isRecord_record rfl)⟩

theorem BlockDesc.form_encode (b : BlockDesc) : b.Form b.encode :=
  ⟨some _, some _, Json.isRecord_record rfl, Json.lists_map OperationDesc.form_encode, rfl⟩

theorem ProcedureDesc.form_encode (p : ProcedureDesc) : p.Form p.encode :=
  ⟨_, Json.isRecord_record rfl, Json.lists_map BlockDesc.form_encode⟩

theorem Description.form_encode (d : Description) : d.Form d.encode :=
  ⟨some _, _, Json.isRecord_record rfl, rfl, Json.lists_map ProcedureDesc.form_encode⟩

theorem Json.wellFormed_record {fields : List (String × Json)}
    (h : ∀ f ∈ fields, f.2.WellFormed) : (Json.record fields).WellFormed := by
  refine .object (fun f hf => ?_) (fun f hf => ?_)
  all_goals obtain ⟨g, hg, rfl⟩ := List.mem_map.mp hf
  · rfl
  · exact h g hg

theorem Json.wellFormed_map {α : Type} {encode : α → Json} {xs : List α}
    (h : ∀ x, (encode x).WellFormed) : (Json.array (xs.map encode)).WellFormed := by
  refine .array fun j hj => ?_
  obtain ⟨x, -, rfl⟩ := List.mem_map.mp hj
  exact h x

theorem wellFormed_encodeOption (s : Option String) : (encodeOption s).WellFormed := by
  cases s with
  | none => exact .null
  | some s => exact .string s

theorem wellFormed_encodeNames (names : List String) : (encodeNames names).WellFormed :=
  Json.wellFormed_map Json.WellFormed.string

theorem OperationDesc.wellFormed_encode (o : OperationDesc) : o.encode.WellFormed := by
  cases o <;> apply Json.wellFormed_record <;>
    simp [Json.text, Json.WellFormed.string, wellFormed_encodeOption]

theorem BlockDesc.wellFormed_encode (b : BlockDesc) : b.encode.WellFormed := by
  apply Json.wellFormed_record
  simp [Json.text, Json.WellFormed.string, Json.wellFormed_map, wellFormed_encodeNames,
    OperationDesc.wellFormed_encode]

theorem ProcedureDesc.wellFormed_encode (p : ProcedureDesc) : p.encode.WellFormed := by
  apply Json.wellFormed_record
  simp [Json.text, Json.WellFormed.string, Json.wellFormed_map, BlockDesc.wellFormed_encode]

theorem Description.wellFormed_encode (d : Description) : d.encode.WellFormed := by
  apply Json.wellFormed_record
  simp [Json.text, Json.WellFormed.string, Json.wellFormed_map, ProcedureDesc.wellFormed_encode]

/-- A description is read back from what is written for it, as a value and as a text. Its forms are
read as it, and nothing else is. -/
theorem descriptions_are_read_from_their_forms (d : Description) :
    Description.decode d.encode = some d ∧
    Description.parse? d.encode.pretty = some d ∧
    (∀ j, Description.decode j = some d ↔ d.Form j) ∧
    ∀ text, Description.parse? text = some d ↔ ∃ j, Json.parse? text = some j ∧ d.Form j := by
  have hencode : Description.decode d.encode = some d :=
    Description.decode_eq_some.mpr d.form_encode
  refine ⟨hencode, ?_, fun _ => Description.decode_eq_some, fun text => ?_⟩
  · rw [Description.parse?, Json.parse?_pretty d.wellFormed_encode, Option.bind_some, hencode]
  · simp only [Description.parse?, Option.bind_eq_some_iff, Description.decode_eq_some]

/-- Records as arrays and as objects, with fields left out and the tag of the operation last. -/
example : Description.parse? ("[\"main\", [[\"main\", [\x7b\"ops\": [\x7b\"callee\": \"f\", " ++
      "\"op\": \"call\"\x7d], \"name\": \"entry\", \"size\": 1\x7d]]]]") =
    some { procedures := [⟨"main", [⟨"entry", [.call "f" none], []⟩]⟩] } := by
  decide +kernel

end YieldPlan
