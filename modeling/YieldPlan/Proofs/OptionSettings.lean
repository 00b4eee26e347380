import YieldPlan.PassOptions
import YieldPlan.Table
import Mathlib.Data.List.Dedup
import Mathlib.Data.List.Induction
import Mathlib.Data.List.Nodup

/-! Every option of a pass has a value whatever texts are given: that of the last text that sets it,
and its default if none does. The value is one that the option takes, but for a stream that is named
without a value; it is switched on like a flag, and whoever asks for the stream is refused. -/

namespace YieldPlan

namespace Text

variable {sep : Char} {cs p q : List Char} {rest : List (List Char)}

theorem splitAt_of_not_mem (h : sep ∉ p) : splitAt sep p = [p] := by
  induction p with
  | nil => rfl
  | cons c p ih =>
    rw [List.mem_cons, not_or] at h
    rw [splitAt, if_neg fun hc => h.1 hc.symm, ih h.2]

theorem splitAt_append_cons (h : sep ∉ p) : splitAt sep (p ++ sep :: cs) = p :: splitAt sep cs := by
  induction p with
  | nil => rw [List.nil_append, splitAt, if_pos rfl]
  | cons c p ih =>
    rw [List.mem_cons, not_or] at h
    rw [List.cons_append, splitAt, if_neg fun hc => h.1 hc.symm, ih h.2]

theorem splitAt_eq_cons_iff : splitAt sep cs = p :: rest ↔ sep ∉ p ∧
    (cs = p ∧ rest = [] ∨ ∃ behind, cs = p ++ sep :: behind ∧ rest = splitAt sep behind) := by
  constructor
  · intro h
    by_cases hmem : sep ∈ cs
    · obtain ⟨piece, behind, rfl, hpiece⟩ := List.eq_append_cons_of_mem hmem
      rw [splitAt_append_cons hpiece] at h
      cases h
      exact ⟨hpiece, .inr ⟨behind, rfl, rfl⟩⟩
    · rw [splitAt_of_not_mem hmem] at h
      cases h
      exact ⟨hmem, .inl ⟨rfl, rfl⟩⟩
  · rintro ⟨hp, ⟨rfl, rfl⟩ | ⟨behind, rfl, rfl⟩⟩
    · exact splitAt_of_not_mem hp
    · exact splitAt_append_cons hp

inductive Behind (sep : Char) : List Char → Prop where
  | nothing : Behind sep []
  | more (cs : List Char) : Behind sep (sep :: cs)

theorem exists_splitAt_eq_cons : (∃ rest, splitAt sep cs = p :: rest) ↔
    sep ∉ p ∧ ∃ tail, cs = p ++ tail ∧ Behind sep tail := by
  simp only [splitAt_eq_cons_iff]
  constructor
  · rintro ⟨rest, hp, ⟨rfl, -⟩ | ⟨behind, rfl, -⟩⟩
    · exact ⟨hp, [], by simp, .nothing⟩
    · exact ⟨hp, _, rfl, .more behind⟩
  · rintro ⟨hp, tail, rfl, htail⟩
    cases htail with
    | nothing => exact ⟨[], hp, .inl ⟨by simp, rfl⟩⟩
    | more behind => exact ⟨_, hp, .inr ⟨behind, rfl, rfl⟩⟩

theorem exists_splitAt_eq_cons_cons : (∃ rest, splitAt sep cs = p :: q :: rest) ↔
    sep ∉ p ∧ sep ∉ q ∧ ∃ tail, cs = p ++ sep :: q ++ tail ∧ Behind sep tail := by
  constructor
  · rintro ⟨rest, hsplit⟩
    obtain ⟨hp, ⟨-, hnil⟩ | ⟨behind, rfl, hbehind⟩⟩ := splitAt_eq_cons_iff.mp hsplit
    · cases hnil
    · obtain ⟨hq, tail, rfl, htail⟩ := exists_splitAt_eq_cons.mp ⟨rest, hbehind.symm⟩
      exact ⟨hp, hq, tail, by simp, htail⟩
  · rintro ⟨hp, hq, tail, rfl, htail⟩
    obtain ⟨rest, hrest⟩ := exists_splitAt_eq_cons.mpr ⟨hq, tail, rfl, htail⟩
    exact ⟨rest, splitAt_eq_cons_iff.mpr ⟨hp, .inr ⟨q ++ tail, by simp, hrest.symm⟩⟩⟩

theorem splitAt_eq_singleton_iff : splitAt sep cs = [p] ↔ sep ∉ p ∧ cs = p := by
  rw [splitAt_eq_cons_iff]
  constructor
  · rintro ⟨hp, ⟨rfl, -⟩ | ⟨behind, -, hnil⟩⟩
    · exact ⟨hp, rfl⟩
    · exact absurd hnil.symm (splitAt_ne_nil sep behind)
  · rintro ⟨hp, rfl⟩
    exact ⟨hp, .inl ⟨rfl, rfl⟩⟩

theorem split_eq_singleton_iff {s t : String} : split sep s = [t] ↔ sep ∉ t.toList ∧ s = t := by
  rw [split, List.map_eq_singleton_iff]
  constructor
  · rintro ⟨p, hsplit, rfl⟩
    obtain ⟨hp, rfl⟩ := splitAt_eq_singleton_iff.mp hsplit
    rw [String.ofList_toList]
    exact ⟨hp, rfl⟩
  · rintro ⟨ht, rfl⟩
    exact ⟨s.toList, splitAt_of_not_mem ht, String.ofList_toList⟩

theorem exists_split_eq_cons_cons {s t u : String} : (∃ rest, split sep s = t :: u :: rest) ↔
    sep ∉ t.toList ∧ sep ∉ u.toList ∧
      ∃ tail, s.toList = t.toList ++ sep :: u.toList ++ tail ∧ Behind sep tail := by
  rw [← exists_splitAt_eq_cons_cons]
  constructor
  · rintro ⟨rest, hrest⟩
    obtain ⟨p, tail, hsplit, rfl, htail⟩ := List.map_eq_cons_iff.mp hrest
    obtain ⟨q, tail, rfl, rfl, rfl⟩ := List.map_eq_cons_iff.mp htail
    rw [String.toList_ofList, String.toList_ofList]
    exact ⟨tail, hsplit⟩
  · rintro ⟨rest, hrest⟩
    exact ⟨rest.map String.ofList, by simp [split, hrest]⟩

end Text

def OptionValue.kind : OptionValue → OptionKind
  | .flag _ => .flag
  | .stream _ => .stream

theorem OptionKind.parse?_kind {k : OptionKind} {s : String} {v : OptionValue}
    (h : k.parse? s = some v) : v.kind = k := by
  cases k with
  | flag =>
    rw [parse?] at h
    split at h
    · cases h
      rfl
    · split at h
      · cases h
        rfl
      · cases h
  | stream =>
    cases h
    rfl

namespace Pass

open Text

/-- What the readings of a pass rely on: its names hold no separators, and no two options share one. -/
structure WellNamed (pass : Pass) : Prop where
  name : ':' ∉ pass.name.toList
  plain : ∀ o ∈ pass.options, ':' ∉ o.name.toList ∧ '=' ∉ o.name.toList
  distinct : (pass.options.map (·.name)).Nodup
  default : ∀ o ∈ pass.options, o.default.kind = o.kind

theorem wellNamed_of_mem {pass : Pass} (h : pass ∈ all) : pass.WellNamed := by
  have hcases : pass = collect ∨ pass = instrument ∨ pass = track ∨ pass = wellFormed := by
    simpa [all] using h
  rcases hcases with rfl | rfl | rfl | rfl <;> constructor <;> decide

variable {pass : Pass} {texts : List String} {text setting : String} {o : PassOption}
  {v w : OptionValue}

/-- The text names the pass and gives the setting, which ends at the next colon. -/
def Addressed (pass : Pass) (text setting : String) : Prop :=
  ':' ∉ setting.toList ∧ ∃ tail,
    text.toList = pass.name.toList ++ ':' :: setting.toList ++ tail ∧ Behind ':' tail

/-- A setting of an option: its name alone, or an equals sign and a value that ends at the next one. -/
inductive Gives (setting : String) (o : PassOption) : OptionValue → Prop where
  | bare : setting = o.name → Gives setting o (.flag true)
  | value {s : String} {tail : List Char} {v : OptionValue} :
      setting.toList = o.name.toList ++ '=' :: s.toList ++ tail → '=' ∉ s.toList →
        Behind '=' tail → o.kind.parse? s = some v → Gives setting o v

/-- The text sets the option. -/
def Sets (pass : Pass) (text : String) (o : PassOption) (v : OptionValue) : Prop :=
  ∃ setting, pass.Addressed text setting ∧ Gives setting o v

theorem addressed_iff (h : pass.WellNamed) :
    pass.Addressed text setting ↔ ∃ rest, split ':' text = pass.name :: setting :: rest := by
  rw [exists_split_eq_cons_cons]
  exact ⟨fun hset => ⟨h.name, hset⟩, fun hset => hset.2⟩

theorem gives_iff (h : '=' ∉ o.name.toList) : Gives setting o v ↔
    split '=' setting = [o.name] ∧ v = .flag true ∨
      ∃ s, (∃ rest, split '=' setting = o.name :: s :: rest) ∧ o.kind.parse? s = some v := by
  simp only [exists_split_eq_cons_cons, split_eq_singleton_iff]
  constructor
  · rintro (rfl | ⟨hsetting, hs, htail, hparse⟩)
    · exact .inl ⟨⟨h, rfl⟩, rfl⟩
    · exact .inr ⟨_, ⟨h, hs, _, hsetting, htail⟩, hparse⟩
  · rintro (⟨⟨-, rfl⟩, rfl⟩ | ⟨s, ⟨-, hs, tail, hsetting, htail⟩, hparse⟩)
    · exact .bare rfl
    · exact .value hsetting hs htail hparse

theorem find?_name (h : pass.WellNamed) {name : String} :
    pass.options.find? (fun o => o.name == name) = some o ↔ o ∈ pass.options ∧ o.name = name := by
  constructor
  · intro hfind
    exact ⟨List.mem_of_find?_eq_some hfind, by simpa using List.find?_some hfind⟩
  · rintro ⟨ho, rfl⟩
    obtain ⟨o', ho'⟩ : ∃ o', pass.options.find? (fun x => x.name == o.name) = some o' :=
      Option.isSome_iff_exists.mp (List.find?_isSome.mpr ⟨o, ho, by simp⟩)
    have hname : o'.name = o.name := by simpa using List.find?_some ho'
    rw [ho', List.inj_on_of_nodup_map h.distinct (List.mem_of_find?_eq_some ho') ho hname]

theorem read_eq_value_iff (h : pass.WellNamed) {name : String} :
    pass.read text = .value name v ↔ ∃ o ∈ pass.options, o.name = name ∧ pass.Sets text o v := by
  constructor
  · intro hread
    unfold read at hread
    split at hread
    · next passName setting behind hsplit =>
      split at hread
      · next hpass =>
        subst hpass
        have haddressed : pass.Addressed text setting := (addressed_iff h).mpr ⟨_, hsplit⟩
        split at hread
        · cases hread
        · next opt values hsetting =>
          split at hread
          · cases hread
          · next o hfind =>
            cases hread
            obtain ⟨ho, rfl⟩ := (find?_name h).mp hfind
            exact ⟨o, ho, rfl, setting, haddressed,
              (gives_iff (h.plain o ho).2).mpr (.inl ⟨hsetting, rfl⟩)⟩
          · next o s rest hfind =>
            obtain ⟨ho, rfl⟩ := (find?_name h).mp hfind
            split at hread
            · next hparse =>
              cases hread
              exact ⟨o, ho, rfl, setting, haddressed,
                (gives_iff (h.plain o ho).2).mpr (.inr ⟨s, ⟨_, hsetting⟩, hparse⟩)⟩
            · cases hread
      · cases hread
    · cases hread
  · rintro ⟨o, ho, rfl, setting, haddressed, hgives⟩
    obtain ⟨behind, hsplit⟩ := (addressed_iff h).mp haddressed
    have hfind := (find?_name h).mpr ⟨ho, rfl⟩
    rcases (gives_iff (h.plain o ho).2).mp hgives with ⟨hsetting, rfl⟩ | ⟨s, ⟨rest, hsetting⟩, hparse⟩
    · simp [read, hsplit, hsetting, hfind]
    · simp [read, hsplit, hsetting, hfind, hparse]

theorem read_of_other (h : ¬ (pass.name ++ ":").toList <+: text.toList) :
    pass.read text = .none := by
  unfold read
  split
  · next name setting behind hsplit =>
    rw [if_neg]
    rintro rfl
    obtain ⟨-, -, tail, htext, -⟩ := exists_split_eq_cons_cons.mp ⟨behind, hsplit⟩
    exact h ⟨setting.toList ++ tail, by simp [htext]⟩
  · rfl

theorem Sets.unique (h : pass.WellNamed) (ho : o ∈ pass.options) (hv : pass.Sets text o v)
    (hw : pass.Sets text o w) : v = w := by
  have hreadv := (read_eq_value_iff h).mpr ⟨o, ho, rfl, hv⟩
  have hreadw := (read_eq_value_iff h).mpr ⟨o, ho, rfl, hw⟩
  exact (OptionReading.value.inj (hreadv.symm.trans hreadw)).2

def SetLast (pass : Pass) (texts : List String) (o : PassOption) (v : OptionValue) : Prop :=
  ∃ earlier text later, texts = earlier ++ text :: later ∧ pass.Sets text o v ∧
    ∀ t ∈ later, ∀ w, ¬ pass.Sets t o w

theorem setLast_append : pass.SetLast (texts ++ [text]) o v ↔
    pass.Sets text o v ∨ pass.SetLast texts o v ∧ ∀ w, ¬ pass.Sets text o w := by
  constructor
  · rintro ⟨earlier, t, later, htexts, hset, hlater⟩
    rcases List.eq_nil_or_concat later with rfl | ⟨later, last, rfl⟩
    · obtain ⟨-, ht⟩ := List.append_inj' htexts rfl
      obtain rfl := List.singleton_inj.mp ht
      exact .inl hset
    · rw [List.concat_eq_append, ← List.cons_append, ← List.append_assoc] at htexts
      obtain ⟨rfl, ht⟩ := List.append_inj' htexts rfl
      obtain rfl := List.singleton_inj.mp ht
      exact .inr ⟨⟨earlier, t, later, rfl, hset, fun t' ht' => hlater t' (by simp [ht'])⟩,
        hlater _ (by simp)⟩
  · rintro (hset | ⟨⟨earlier, t, later, rfl, hset, hlater⟩, hnot⟩)
    · exact ⟨texts, text, [], rfl, hset, by simp⟩
    · refine ⟨earlier, t, later ++ [text], by simp, hset, fun t' ht' w => ?_⟩
      rcases List.mem_append.mp ht' with ht' | ht'
      · exact hlater t' ht' w
      · rw [List.mem_singleton.mp ht']
        exact hnot w

theorem SetLast.unique (h : pass.WellNamed) (ho : o ∈ pass.options) (hv : pass.SetLast texts o v)
    (hw : pass.SetLast texts o w) : v = w := by
  induction texts using List.reverseRecOn with
  | nil =>
    obtain ⟨earlier, t, later, hnil, -⟩ := hv
    simp at hnil
  | append_singleton texts text ih =>
    rcases setLast_append.mp hv with hv | ⟨hv, hnot⟩ <;>
      rcases setLast_append.mp hw with hw | ⟨hw, hnot'⟩
    · exact hv.unique h ho hw
    · exact absurd hv (hnot' v)
    · exact absurd hw (hnot w)
    · exact ih hv hw

theorem lookup_assign (values : OptionValues) (r : OptionReading) (name : String) :
    (assign values r).lookup name =
      match r with
      | .value opt v => if name = opt then some v else values.lookup name
      | _ => values.lookup name := by
  cases r with
  | value opt v =>
    simp only [assign, List.lookup_append, Table.lookup_filter_ne]
    by_cases h : name = opt
    · simp [h]
    · have : (name == opt) = false := by simpa using h
      simp [h, List.lookup_cons, this]
  | none | unknown _ | invalid _ _ => rfl

theorem givenValues_append (pass : Pass) (texts : List String) (text : String) :
    pass.givenValues (texts ++ [text]) = assign (pass.givenValues texts) (pass.read text) := by
  simp [givenValues]

theorem lookup_assign_read (h : pass.WellNamed) (ho : o ∈ pass.options)
    (hnot : ∀ v, ¬ pass.Sets text o v) (values : OptionValues) :
    (assign values (pass.read text)).lookup o.name = values.lookup o.name := by
  rw [lookup_assign]
  split
  · next opt v hread =>
    rw [if_neg]
    rintro rfl
    obtain ⟨o', ho', hname, hset⟩ := (read_eq_value_iff h).mp hread
    rw [List.inj_on_of_nodup_map h.distinct ho' ho hname] at hset
    exact hnot v hset
  · rfl

theorem lookup_givenValues (h : pass.WellNamed) (ho : o ∈ pass.options) (texts : List String) :
    ((pass.givenValues texts).lookup o.name = none ∧ ∀ text ∈ texts, ∀ v, ¬ pass.Sets text o v) ∨
      ∃ v, (pass.givenValues texts).lookup o.name = some v ∧ pass.SetLast texts o v := by
  induction texts using List.reverseRecOn with
  | nil => exact .inl ⟨rfl, by simp⟩
  | append_singleton texts text ih =>
    rw [givenValues_append]
    by_cases hset : ∃ v, pass.Sets text o v
    · obtain ⟨v, hset⟩ := hset
      have hread := (read_eq_value_iff h).mpr ⟨o, ho, rfl, hset⟩
      refine .inr ⟨v, ?_, setLast_append.mpr (.inl hset)⟩
      rw [lookup_assign, hread]
      exact if_pos rfl
    · have hnot : ∀ v, ¬ pass.Sets text o v := fun v hv => hset ⟨v, hv⟩
      rw [lookup_assign_read h ho hnot]
      rcases ih with ⟨hnone, hall⟩ | ⟨v, hv, hlast⟩
      · refine .inl ⟨hnone, fun t ht => ?_⟩
        rcases List.mem_append.mp ht with ht | ht
        · exact hall t ht
        · rw [List.mem_singleton.mp ht]
          exact hnot
      · exact .inr ⟨v, hv, setLast_append.mpr (.inr ⟨hlast, hnot⟩)⟩

theorem lookup_map_of_mem {l : List PassOption} (hnodup : (l.map (·.name)).Nodup) (ho : o ∈ l) :
    (l.map fun o => (o.name, o.default)).lookup o.name = some o.default := by
  induction l with
  | nil => simp at ho
  | cons a l ih =>
    rw [List.map_cons, List.nodup_cons] at hnodup
    rcases List.mem_cons.mp ho with rfl | ho
    · simp
    · have hne : (o.name == a.name) = false := by
        rw [beq_eq_false_iff_ne]
        intro heq
        exact hnodup.1 (heq ▸ List.mem_map_of_mem ho)
      rw [List.map_cons, List.lookup_cons, hne]
      exact ih hnodup.2 ho

theorem not_any_key_iff {values : OptionValues} {name : String} :
    (!values.any fun e => e.1 == name) = true ↔ name ∉ values.map (·.1) := by
  rw [Bool.not_eq_true', List.any_eq_false, List.mem_map, not_exists]
  simp only [beq_iff_eq, not_and]

theorem lookup_missingValues (h : pass.WellNamed) (ho : o ∈ pass.options) {values : OptionValues}
    (hnone : values.lookup o.name = none) :
    (pass.missingValues values).lookup o.name = some o.default := by
  apply lookup_map_of_mem
  · exact h.distinct.sublist (List.filter_sublist.map _)
  · refine List.mem_filter.mpr ⟨ho, not_any_key_iff.mpr ?_⟩
    rw [List.mem_map]
    rintro ⟨e, he, hname⟩
    have hkey := List.lookup_eq_none_iff.mp hnone e he
    simp [hname] at hkey

/-- The value that texts give to an option of a pass. -/
inductive Configured (pass : Pass) (texts : List String) (o : PassOption) : OptionValue → Prop where
  | default : (∀ text ∈ texts, ∀ v, ¬ pass.Sets text o v) → Configured pass texts o o.default
  | last {v : OptionValue} : pass.SetLast texts o v → Configured pass texts o v

theorem SetLast.not_unset (hv : pass.SetLast texts o v)
    (hall : ∀ text ∈ texts, ∀ w, ¬ pass.Sets text o w) : False := by
  obtain ⟨earlier, text, later, rfl, hset, -⟩ := hv
  exact hall text (by simp) v hset

theorem Configured.unique (h : pass.WellNamed) (ho : o ∈ pass.options)
    (hv : pass.Configured texts o v) (hw : pass.Configured texts o w) : v = w := by
  cases hv with
  | default hall =>
    cases hw with
    | default => rfl
    | last hw => exact (hw.not_unset hall).elim
  | last hv =>
    cases hw with
    | default hall => exact (hv.not_unset hall).elim
    | last hw => exact hv.unique h ho hw

theorem get_values (h : pass.WellNamed) (ho : o ∈ pass.options) (texts : List String) :
    ∃ v, (pass.values texts).get o.name = .ok v ∧ pass.Configured texts o v := by
  unfold OptionValues.get values
  rw [List.lookup_append]
  rcases lookup_givenValues h ho texts with ⟨hnone, hall⟩ | ⟨v, hv, hlast⟩
  · rw [hnone, lookup_missingValues h ho hnone]
    exact ⟨_, rfl, .default hall⟩
  · rw [hv]
    exact ⟨_, rfl, .last hlast⟩

theorem keys_givenValues (h : pass.WellNamed) (texts : List String) :
    ((pass.givenValues texts).map (·.1)).Nodup ∧
      ∀ name ∈ (pass.givenValues texts).map (·.1), name ∈ pass.options.map (·.name) := by
  induction texts using List.reverseRecOn with
  | nil => exact ⟨List.nodup_nil, by simp [givenValues]⟩
  | append_singleton texts text ih =>
    obtain ⟨hnodup, hmem⟩ := ih
    rw [givenValues_append]
    cases hread : pass.read text with
    | value opt v =>
      obtain ⟨o, ho, rfl, -⟩ := (read_eq_value_iff h).mp hread
      have hkept : ((pass.givenValues texts).filter fun e => e.1 ≠ o.name).map (·.1) =
          ((pass.givenValues texts).map (·.1)).filter (· ≠ o.name) := by
        rw [List.filter_map]
        rfl
      simp only [assign, List.map_append, List.map_cons, List.map_nil, hkept]
      constructor
      · exact List.nodup_append.mpr ⟨hnodup.filter _, by simp, by simp⟩
      · intro name hname
        rcases List.mem_append.mp hname with hname | hname
        · exact hmem name (List.mem_filter.mp hname).1
        · rw [List.mem_singleton.mp hname]
          exact List.mem_map_of_mem ho
    | none | unknown _ | invalid _ _ => exact ⟨hnodup, hmem⟩

theorem keys_values (h : pass.WellNamed) (texts : List String) :
    ((pass.values texts).map (·.1)).Perm (pass.options.map (·.name)) := by
  obtain ⟨hnodup, hmem⟩ := keys_givenValues h texts
  have hmissing : (pass.missingValues (pass.givenValues texts)).map (·.1) =
      (pass.options.filter fun o =>
        !(pass.givenValues texts).any fun e => e.1 == o.name).map (·.name) := by
    rw [missingValues, List.map_map]
    rfl
  have hmem_missing (name : String) : name ∈ (pass.missingValues (pass.givenValues texts)).map (·.1) ↔
      name ∈ pass.options.map (·.name) ∧ name ∉ (pass.givenValues texts).map (·.1) := by
    rw [hmissing, List.mem_map]
    constructor
    · rintro ⟨o, ho, rfl⟩
      obtain ⟨ho, hnot⟩ := List.mem_filter.mp ho
      exact ⟨List.mem_map_of_mem ho, not_any_key_iff.mp hnot⟩
    · rintro ⟨hname, hnot⟩
      obtain ⟨o, ho, rfl⟩ := List.mem_map.mp hname
      exact ⟨o, List.mem_filter.mpr ⟨ho, not_any_key_iff.mpr hnot⟩, rfl⟩
  rw [values, List.map_append]
  apply (List.perm_ext_iff_of_nodup _ h.distinct).mpr
  · intro name
    rw [List.mem_append, hmem_missing]
    have := hmem name
    tauto
  · refine List.nodup_append.mpr ⟨hnodup, ?_, ?_⟩
    · rw [hmissing]
      exact h.distinct.sublist (List.filter_sublist.map _)
    · rintro name hgiven _ hname rfl
      exact ((hmem_missing name).mp hname).2 hgiven

def Accepts : OptionKind → OptionValue → Prop
  | .flag, v => ∃ b, v.asFlag = .ok b
  | .stream, v => ∃ s, v.asStream = .ok s

theorem accepts_iff {k : OptionKind} : Accepts k v ↔ v.kind = k := by
  cases k <;> cases v with
  | flag b => simp [Accepts, OptionValue.asFlag, OptionValue.asStream, OptionValue.kind]
  | stream s => cases s <;> simp [Accepts, OptionValue.asFlag, OptionValue.asStream, OptionValue.kind]

def BareLast (pass : Pass) (texts : List String) (o : PassOption) : Prop :=
  ∃ earlier text later, texts = earlier ++ text :: later ∧ pass.Addressed text o.name ∧
    ∀ t ∈ later, ∀ w, ¬ pass.Sets t o w

theorem BareLast.setLast (h : pass.BareLast texts o) : pass.SetLast texts o (.flag true) := by
  obtain ⟨earlier, text, later, htexts, haddressed, hlater⟩ := h
  exact ⟨earlier, text, later, htexts, ⟨o.name, haddressed, .bare rfl⟩, hlater⟩

/-- A value is of the kind of its option, unless it comes from the name alone. -/
theorem Configured.kind_or_bare (h : pass.WellNamed) (ho : o ∈ pass.options)
    (hv : pass.Configured texts o v) : v.kind = o.kind ∨ v = .flag true ∧ pass.BareLast texts o := by
  cases hv with
  | default => exact .inl (h.default o ho)
  | last hlast =>
    obtain ⟨earlier, text, later, htexts, ⟨setting, haddressed, hgives⟩, hlater⟩ := hlast
    cases hgives with
    | bare hname =>
      subst hname
      exact .inr ⟨rfl, earlier, text, later, htexts, haddressed, hlater⟩
    | value hsetting hs htail hparse => exact .inl (OptionKind.parse?_kind hparse)

theorem Configured.accepts_iff (h : pass.WellNamed) (ho : o ∈ pass.options)
    (hv : pass.Configured texts o v) :
    Accepts o.kind v ↔ ¬ (o.kind = .stream ∧ pass.BareLast texts o) := by
  rw [Pass.accepts_iff]
  constructor
  · rintro hkind ⟨hstream, hbare⟩
    have hflag : v = .flag true := hv.unique h ho (.last hbare.setLast)
    rw [hflag, hstream] at hkind
    cases hkind
  · intro hnot
    rcases hv.kind_or_bare h ho with hkind | ⟨rfl, hbare⟩
    · exact hkind
    · cases hkind : o.kind with
      | flag => rfl
      | stream => exact absurd ⟨hkind, hbare⟩ hnot

theorem values_of_other (earlier later : List String)
    (h : ¬ (pass.name ++ ":").toList <+: text.toList) :
    pass.values (earlier ++ text :: later) = pass.values (earlier ++ later) := by
  have hgiven : pass.givenValues (earlier ++ text :: later) =
      pass.givenValues (earlier ++ later) := by
    simp [givenValues, read_of_other h, assign]
  rw [values, values, hgiven]

theorem sets_plain {s : String} (hname : ':' ∉ o.name.toList) (hcolon : ':' ∉ s.toList)
    (hequals : '=' ∉ s.toList) (hparse : o.kind.parse? s = some v) :
    pass.Sets (pass.name ++ ":" ++ o.name ++ "=" ++ s) o v := by
  refine ⟨o.name ++ "=" ++ s, ⟨?_, [], ?_, .nothing⟩, .value ?_ hequals .nothing hparse⟩
  · simp [hname, hcolon]
  · simp
  · simp

end Pass

open Pass in
/-- Whatever texts are given, each option of each pass has one value and nothing else has one: that of
the last text that sets it, all of what stands behind the equals sign if this holds no separator, or the
default. The accessor of the option takes it, unless the option is a stream and that text names it
without a value. Texts for other passes have no effect. -/
theorem options_have_their_last_value {pass : Pass} (hpass : pass ∈ all) (texts : List String) :
    ((pass.values texts).map (·.1)).Perm (pass.options.map (·.name)) ∧
    (∀ o ∈ pass.options, ∃ v, (pass.values texts).get o.name = .ok v ∧
      pass.Configured texts o v ∧ (∀ w, pass.Configured texts o w → w = v) ∧
      (Accepts o.kind v ↔ ¬ (o.kind = .stream ∧ pass.BareLast texts o))) ∧
    (∀ o ∈ pass.options, ∀ s v, ':' ∉ s.toList → '=' ∉ s.toList → o.kind.parse? s = some v →
      pass.Sets (pass.name ++ ":" ++ o.name ++ "=" ++ s) o v) ∧
    (∀ earlier text later, ¬ (pass.name ++ ":").toList <+: text.toList →
      pass.values (earlier ++ text :: later) = pass.values (earlier ++ later)) := by
  have h := wellNamed_of_mem hpass
  refine ⟨keys_values h texts, fun o ho => ?_, fun o ho s v hcolon hequals hparse => ?_,
    fun earlier text later hother => values_of_other earlier later hother⟩
  · obtain ⟨v, hget, hv⟩ := get_values h ho texts
    exact ⟨v, hget, hv, fun w hw => hw.unique h ho hv, hv.accepts_iff h ho⟩
  · exact sets_plain (h.plain o ho).1 hcolon hequals hparse

def Pass.namedThenSet : List String :=
  ["collect:dump-alias-sets", "liptonize:no-conflict-check", "collect:dump-alias-sets=<err>"]

open Pass in
/-- The later text counts, so the stream is taken. -/
theorem later_stream_is_taken : collect ∈ all ∧ ∀ o ∈ collect.options,
    (collect.values namedThenSet).get o.name = .ok (.stream .stderr) ∧
      collect.Configured namedThenSet o (.stream .stderr) ∧
      Accepts o.kind (.stream .stderr) ∧ ¬ (o.kind = .stream ∧ collect.BareLast namedThenSet o) := by
  have hpass : collect ∈ all := by decide
  refine ⟨hpass, fun o ho => ?_⟩
  obtain ⟨-, hvalues, -, -⟩ := options_have_their_last_value hpass namedThenSet
  obtain ⟨v, hget, hv, -, haccepts⟩ := hvalues o ho
  have hstderr : ∀ o ∈ collect.options,
      (collect.values namedThenSet).get o.name = .ok (.stream .stderr) := by decide
  obtain rfl := Except.ok.inj ((hstderr o ho).symm.trans hget)
  have htaken : Accepts o.kind (.stream .stderr) := by
    have hkind : ∀ o ∈ collect.options, o.kind = .stream := by decide
    rw [hkind o ho]
    exact ⟨_, rfl⟩
  exact ⟨hget, hv, htaken, haccepts.mp htaken⟩

open Pass in
/-- Not every text leaves an option with a value that its accessor takes, and a value is not read to the
end of its text. -/
theorem bare_stream_option_is_refused :
    (collect.values ["collect:dump-alias-sets"]).get "dump-alias-sets" = .ok (.flag true) ∧
      (OptionValue.flag true).asStream = .error (.defect (.expectedStream "true")) ∧
      (collect.values ["collect:dump-alias-sets=a=b"]).get "dump-alias-sets" =
        .ok (.stream (.file "a")) := by
  decide

end YieldPlan
