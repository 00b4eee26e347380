import Mathlib.Data.List.DropRight
import Mathlib.Data.List.TakeDrop
import YieldPlan.Json.Parser
import YieldPlan.Json.Printer

/-! Every value whose literals are well-formed is read back from its printed text. Texts are read
character by character and numbers part by part. Values then follow by induction, for which the
length of the printed text is fuel enough. -/

open YieldPlan.Json.Parser

namespace YieldPlan

structure NumberLiteral.WellFormed (n : NumberLiteral) : Prop where
  whole : ∀ c ∈ n.whole, c.isDigit
  nonempty : n.whole ≠ []
  zero : n.whole.head? = some '0' → n.whole = ['0']
  fraction : ∀ c ∈ n.fraction, c.isDigit

namespace Json

theorem hexValue?_hexDigit : ∀ n < 16, hexValue? (hexDigit n) = some n := by
  decide

theorem assemble_char (c : Char) (ps : List Piece) :
    assemble (.char c :: ps) = (assemble ps).map (c :: ·) := by
  rw [assemble]

theorem assemble_unit {n : Nat} (hn : n < 0xd800) (ps : List Piece) :
    assemble (.unit n :: ps) = (assemble ps).map (Char.ofNat n :: ·) := by
  have hhigh : isHighSurrogate n = false := by
    simp only [isHighSurrogate, Bool.and_eq_false_iff, decide_eq_false_iff_not]
    omega
  have hlow : isLowSurrogate n = false := by
    simp only [isLowSurrogate, Bool.and_eq_false_iff, decide_eq_false_iff_not]
    omega
  rcases ps with - | ⟨c | m, ps⟩ <;> simp [assemble, hhigh, hlow]

/-- The text is read as one piece, which stands for the character. -/
def Spells (c : Char) (text : List Char) : Prop := ∃ p,
  (∀ cs, pieces (text ++ cs) = (pieces cs).map fun r => (p :: r.1, r.2)) ∧
  ∀ ps, assemble (p :: ps) = (assemble ps).map (c :: ·)

theorem spells_escape {c d : Char} (hd : escape? d = some c) (hu : d ≠ 'u') :
    Spells c ['\\', d] := by
  refine ⟨.char c, fun cs => ?_, assemble_char c⟩
  rw [List.cons_append, List.singleton_append, pieces]
  · rw [hd]
    cases pieces cs <;> rfl
  · intro a b c d rest h
    exact absurd h hu

theorem spells_plain {c : Char} (hquote : c ≠ '"') (hbackslash : c ≠ '\\')
    (hcontrol : ¬ c.toNat < 0x20) : Spells c [c] := by
  refine ⟨.char c, fun cs => ?_, assemble_char c⟩
  rw [List.singleton_append, pieces]
  · have hstop : (c.toNat < 0x20 || c = '\\') = false := by simp [hcontrol, hbackslash]
    rw [hstop]
    cases pieces cs <;> rfl
  · exact hquote
  · intro a b c d rest h
    exact absurd h hbackslash
  · intro c rest h
    exact absurd h hbackslash

theorem spells_unit {c : Char} (hcontrol : c.toNat < 0x20) :
    Spells c ['\\', 'u', '0', '0', hexDigit (c.toNat / 16), hexDigit (c.toNat % 16)] := by
  refine ⟨.unit c.toNat, fun cs => ?_, fun ps => ?_⟩
  · have hhigh := hexValue?_hexDigit (c.toNat / 16) (by omega)
    have hlow := hexValue?_hexDigit (c.toNat % 16) (by omega)
    have hzero : hexValue? '0' = some 0 := rfl
    have hvalue : ((0 * 16 + 0) * 16 + c.toNat / 16) * 16 + c.toNat % 16 = c.toNat := by omega
    simp only [List.cons_append, List.nil_append, pieces, hzero, hhigh, hlow, Option.bind_eq_bind,
      Option.bind_some, hvalue]
    cases pieces cs <;> rfl
  · rw [assemble_unit (by omega), Char.ofNat_toNat]

theorem spells_escaped (c : Char) : Spells c (escaped c) := by
  have hcode : ∀ n, c.toNat = n → c = Char.ofNat n := fun n hn => by rw [← hn, Char.ofNat_toNat]
  unfold escaped
  split_ifs with hquote hbackslash hnewline hreturn htab hback hfeed hcontrol
  · exact spells_escape (by rw [hquote]; rfl) (by decide)
  · exact spells_escape (by rw [hbackslash]; rfl) (by decide)
  · exact spells_escape (by rw [hnewline]; rfl) (by decide)
  · exact spells_escape (by rw [hreturn]; rfl) (by decide)
  · exact spells_escape (by rw [htab]; rfl) (by decide)
  · exact spells_escape (by rw [hcode 8 hback]; rfl) (by decide)
  · exact spells_escape (by rw [hcode 12 hfeed]; rfl) (by decide)
  · exact spells_unit hcontrol
  · exact spells_plain hquote hbackslash hcontrol

theorem literal_quoted (s : String) (rest : List Char) :
    literal (s.toList.flatMap escaped ++ '"' :: rest) = some (some s, rest) := by
  have hpieces : ∀ cs : List Char, ∃ ps,
      pieces (cs.flatMap escaped ++ '"' :: rest) = some (ps, rest) ∧ assemble ps = some cs := by
    intro cs
    induction cs with
    | nil => exact ⟨[], rfl, rfl⟩
    | cons c cs ih =>
      obtain ⟨ps, hps, hcs⟩ := ih
      obtain ⟨p, hp, hc⟩ := spells_escaped c
      refine ⟨p :: ps, ?_, ?_⟩
      · rw [List.flatMap_cons, List.append_assoc, hp, hps, Option.map_some]
      · rw [hc, hcs, Option.map_some]
  obtain ⟨ps, hps, hcs⟩ := hpieces s.toList
  simp [literal, hps, hcs]

def StopsAt (p : Char → Bool) (cs : List Char) : Prop := ∀ c ∈ cs.head?, p c = false

def continuesNumber (c : Char) : Bool := c.isDigit || c = '.' || c = 'e' || c = 'E'

theorem digits1_append {ds rest : List Char} (hds : ∀ c ∈ ds, c.isDigit) (hne : ds ≠ [])
    (hrest : StopsAt Char.isDigit rest) : digits1 (ds ++ rest) = some (ds, rest) := by
  have hspan : (ds ++ rest).span Char.isDigit = (ds, rest) := by
    rw [List.span_eq_takeWhile_dropWhile, List.takeWhile_append_of_pos hds,
      List.dropWhile_append_of_pos hds]
    cases rest with
    | nil => simp
    | cons c rest => simp [hrest c rfl]
  rw [digits1, hspan]
  cases ds with
  | nil => exact absurd rfl hne
  | cons d ds => rfl

theorem digitsValue_toDigits (n : Nat) : digitsValue (Nat.toDigits 10 n) = n := by
  have hfold : ∀ (ds : List Char) (m : Nat), ds.foldl addDigit m = Nat.ofDigitChars 10 ds m := by
    intro ds
    induction ds with
    | nil => intro m; rfl
    | cons d ds ih => intro m; exact ih _
  rw [digitsValue, hfold, Nat.ofDigitChars_ten_toDigits]

variable {n : NumberLiteral} {rest : List Char}

theorem wholeDigits_append (hn : n.WellFormed) (hrest : StopsAt Char.isDigit rest) :
    wholeDigits (n.whole ++ rest) = some (n.whole, rest) := by
  rw [wholeDigits, digits1_append hn.whole hn.nonempty hrest]
  split
  · next d ds rest' h =>
    obtain ⟨hwhole, -⟩ := Prod.mk.inj (Option.some.inj h)
    have hzero := hn.zero (by rw [hwhole]; rfl)
    rw [hwhole] at hzero
    cases hzero
  · rfl

theorem StopsAt.mono {p q : Char → Bool} {cs : List Char} (h : StopsAt q cs)
    (hpq : ∀ c, p c → q c) : StopsAt p cs := by
  intro c hc
  have hq := h c hc
  cases hp : p c with
  | false => rfl
  | true => rw [hpq c hp] at hq; cases hq

def fractionText (n : NumberLiteral) : List Char :=
  if n.fraction.isEmpty then [] else '.' :: n.fraction

def exponentText (e : Int) : List Char := if e = 0 then [] else 'e' :: (toString e).toList

theorem toList_text (n : NumberLiteral) : n.text.toList =
    (if n.negative then ['-'] else []) ++ n.whole ++ fractionText n ++ exponentText n.exponent := by
  simp only [NumberLiteral.text, fractionText, exponentText, String.toList_append,
    String.toList_ofList]
  congr 1
  · congr 1
    · split <;> rfl
    · split <;> simp
  · split <;> simp [toString]

theorem fractionDigits_append (hn : n.WellFormed) (hdigit : StopsAt Char.isDigit rest)
    (hpoint : StopsAt (· == '.') rest) :
    fractionDigits (fractionText n ++ rest) = some (n.fraction, rest) := by
  rw [fractionText]
  split
  · next hempty =>
    rw [List.isEmpty_iff.mp hempty, List.nil_append, fractionDigits]
    rintro rest' rfl
    cases hpoint '.' rfl
  · next hne =>
    exact digits1_append hn.fraction (fun h => hne (List.isEmpty_iff.mpr h)) hdigit

theorem digits1_toDigits (m : Nat) (hrest : StopsAt Char.isDigit rest) :
    digits1 (Nat.toDigits 10 m ++ rest) = some (Nat.toDigits 10 m, rest) :=
  digits1_append (fun _ => Nat.isDigit_of_mem_toDigits (by decide) (by decide))
    Nat.toDigits_ne_nil hrest

theorem signedExponent_append (e : Int) (hrest : StopsAt Char.isDigit rest) :
    signedExponent ((toString e).toList ++ rest) = some (e, rest) := by
  cases e with
  | ofNat m =>
    have htext : (toString (Int.ofNat m)).toList = Nat.toDigits 10 m := Nat.toList_repr
    have hhead : ∀ c cs, Nat.toDigits 10 m ++ rest = c :: cs → c.isDigit := by
      intro c cs h
      obtain ⟨d, ds, hds⟩ := List.exists_cons_of_ne_nil (Nat.toDigits_ne_nil (b := 10) (n := m))
      have hd : d ∈ Nat.toDigits 10 m := hds ▸ List.mem_cons_self
      rw [hds] at h
      obtain rfl := (List.cons.inj h).1
      exact Nat.isDigit_of_mem_toDigits (by decide) (by decide) hd
    rw [htext, signedExponent]
    · simp only [digits1_toDigits m hrest, Option.map_some, digitsValue_toDigits]
      rfl
    · intro cs h
      exact absurd (hhead _ _ h) (by decide)
    · intro cs h
      exact absurd (hhead _ _ h) (by decide)
  | negSucc m =>
    have htext : (toString (Int.negSucc m)).toList = '-' :: Nat.toDigits 10 (m + 1) := by
      change (String.append "-" (Nat.repr (m + 1))).toList = _
      rw [← Nat.toList_repr]
      exact String.toList_append
    rw [htext, List.cons_append, signedExponent]
    simp only [digits1_toDigits _ hrest, Option.map_some, digitsValue_toDigits]
    rfl

theorem exponentPart_append (e : Int) (hrest : StopsAt continuesNumber rest) :
    exponentPart (exponentText e ++ rest) = some (e, rest) := by
  rw [exponentText]
  split
  · next hzero =>
    rw [hzero, List.nil_append, exponentPart]
    · rintro rest' rfl
      cases hrest 'e' rfl
    · rintro rest' rfl
      cases hrest 'E' rfl
  · next hne =>
    rw [List.cons_append, exponentPart]
    exact signedExponent_append e (hrest.mono fun c hc => by simp [continuesNumber, hc])

theorem stopsAt_exponentText {p : Char → Bool} (hp : p 'e' = false) (hrest : StopsAt p rest)
    (e : Int) : StopsAt p (exponentText e ++ rest) := by
  rw [exponentText]
  split
  · exact hrest
  · rintro c ⟨⟩
    exact hp

theorem stopsAt_fractionText {p : Char → Bool} (hp : p '.' = false) (hrest : StopsAt p rest)
    (n : NumberLiteral) : StopsAt p (fractionText n ++ rest) := by
  rw [fractionText]
  split
  · exact hrest
  · rintro c ⟨⟩
    exact hp

theorem number_append (hn : n.WellFormed) (hrest : StopsAt continuesNumber rest) :
    Parser.number n.negative (n.whole ++ (fractionText n ++ (exponentText n.exponent ++ rest))) =
      some (.number n, rest) := by
  have hdigit : StopsAt Char.isDigit (exponentText n.exponent ++ rest) :=
    stopsAt_exponentText rfl (hrest.mono fun c hc => by simp [continuesNumber, hc]) _
  have hpoint : StopsAt (· == '.') (exponentText n.exponent ++ rest) :=
    stopsAt_exponentText rfl (hrest.mono fun c hc => by simp [continuesNumber, eq_of_beq hc]) _
  have hwhole := wholeDigits_append hn (stopsAt_fractionText rfl hdigit n)
  have hfraction := fractionDigits_append hn hdigit hpoint
  have hexponent := exponentPart_append n.exponent hrest
  simp [Parser.number, hwhole, hfraction, hexponent]

/-- All literals are texts and numbers of the grammar. -/
inductive WellFormed : Json → Prop where
  | null : WellFormed .null
  | bool (b : Bool) : WellFormed (.bool b)
  | number {n : NumberLiteral} : n.WellFormed → WellFormed (.number n)
  | string (s : String) : WellFormed (.string (some s))
  | array {items : List Json} : (∀ x ∈ items, WellFormed x) → WellFormed (.array items)
  | object {fields : List (Literal × Json)} : (∀ f ∈ fields, f.1.isSome) →
      (∀ f ∈ fields, WellFormed f.2) → WellFormed (.object fields)

attribute [local simp] value Parser.items Parser.fields
attribute [local simp] render renderItems renderFields

/-- The printed value is read back, whatever follows it. -/
def ReadsBack (j : Json) : Prop :=
  ∀ level fuel rest, (j.render level).toList.length ≤ fuel → StopsAt continuesNumber rest →
    value fuel ((j.render level).toList ++ rest) = some (j, rest)

theorem skipBlanks_append {bs cs : List Char} (hbs : ∀ c ∈ bs, isBlank c) :
    skipBlanks (bs ++ cs) = skipBlanks cs :=
  List.dropWhile_append_of_pos hbs

theorem skipBlanks_indentation (level : Nat) (cs : List Char) :
    skipBlanks ((indentation level).toList ++ cs) = skipBlanks cs := by
  apply skipBlanks_append
  intro c hc
  rw [indentation, String.toList_ofList] at hc
  rw [List.eq_of_mem_replicate hc]
  rfl

theorem skipBlanks_newline (cs : List Char) : skipBlanks ('\n' :: cs) = skipBlanks cs := rfl

theorem skipBlanks_idem (cs : List Char) : skipBlanks (skipBlanks cs) = skipBlanks cs :=
  List.dropWhile_idempotent ..

theorem value_congr {cs ds : List Char} (h : skipBlanks cs = skipBlanks ds) (fuel : Nat) :
    value fuel cs = value fuel ds := by
  cases fuel with
  | zero => simp only [value]
  | succ fuel => simp only [value, h]

theorem skipBlanks_of_not {c : Char} (hc : isBlank c = false) (cs : List Char) :
    skipBlanks (c :: cs) = c :: cs := by
  rw [skipBlanks, List.dropWhile_cons, hc]
  rfl

theorem value_digit {c : Char} (hc : c.isDigit) (fuel : Nat) (cs : List Char) :
    value (fuel + 1) (c :: cs) = Parser.number false (c :: cs) := by
  have hblank : isBlank c = false := by
    by_contra hblank
    rw [Bool.not_eq_false, isBlank] at hblank
    simp only [Bool.or_eq_true, decide_eq_true_eq] at hblank
    rcases hblank with ((rfl | rfl) | rfl) | rfl <;> cases hc
  rw [value, skipBlanks_of_not hblank]
  split
  all_goals first
    | rfl
    | rename_i h
      obtain ⟨rfl, -⟩ := List.cons.inj h
      cases hc

theorem items_congr {cs ds : List Char} (h : skipBlanks cs = skipBlanks ds) (fuel : Nat) :
    Parser.items fuel cs = Parser.items fuel ds := by
  cases fuel with
  | zero => simp only [Parser.items]
  | succ fuel => simp only [Parser.items, value_congr h]

theorem fields_congr {cs ds : List Char} (h : skipBlanks cs = skipBlanks ds) (fuel : Nat) :
    Parser.fields fuel cs = Parser.fields fuel ds := by
  cases fuel with
  | zero => simp only [Parser.fields]
  | succ fuel => simp only [Parser.fields, h]

theorem readsBack_null : ReadsBack .null := by
  intro level fuel rest hfuel hrest
  have htext : (render level .null).toList = ['n', 'u', 'l', 'l'] := by
    rw [render]
    rfl
  rw [htext] at hfuel ⊢
  cases fuel with
  | zero => cases hfuel
  | succ fuel => simp [skipBlanks, isBlank]

theorem readsBack_number (hn : n.WellFormed) : ReadsBack (.number n) := by
  intro level fuel rest hfuel hrest
  have hnumber := number_append hn hrest
  rw [render, toList_text] at hfuel ⊢
  cases fuel with
  | zero => simp [hn.nonempty] at hfuel
  | succ fuel =>
    obtain ⟨c, cs, hcs⟩ := List.exists_cons_of_ne_nil hn.nonempty
    have hc : c.isDigit := hn.whole c (by simp [hcs])
    simp only [List.append_assoc]
    split
    · next hnegative =>
      rw [hnegative] at hnumber
      rw [List.singleton_append, value]
      simp [skipBlanks, isBlank, hnumber]
    · next hpositive =>
      rw [Bool.not_eq_true] at hpositive
      rw [hpositive, hcs, List.cons_append] at hnumber
      rw [List.nil_append, hcs, List.cons_append, value_digit hc, hnumber]

theorem readsBack_bool (b : Bool) : ReadsBack (.bool b) := by
  intro level fuel rest hfuel hrest
  have htext : (render level (.bool b)).toList =
      if b then ['t', 'r', 'u', 'e'] else ['f', 'a', 'l', 's', 'e'] := by
    rw [render]
    cases b <;> rfl
  rw [htext] at hfuel ⊢
  cases fuel with
  | zero => cases b <;> cases hfuel
  | succ fuel => cases b <;> simp [skipBlanks, isBlank]

theorem toList_literalText (s : String) :
    (literalText (some s)).toList = '"' :: (s.toList.flatMap escaped ++ ['"']) := by
  rw [literalText, quotedText, String.toList_ofList, List.append_assoc]
  rfl

theorem readsBack_string (s : String) : ReadsBack (.string (some s)) := by
  intro level fuel rest hfuel hrest
  rw [render, toList_literalText] at hfuel ⊢
  cases fuel with
  | zero => cases hfuel
  | succ fuel =>
    have hliteral := literal_quoted s rest
    simp [skipBlanks, isBlank, hliteral]

def itemsText (level : Nat) (items : List Json) : List Char :=
  (",\n".intercalate (renderItems level items)).toList

theorem itemsText_singleton (level : Nat) (x : Json) :
    itemsText level [x] = (indentation level).toList ++ (x.render level).toList := by
  simp [itemsText]

theorem itemsText_cons (level : Nat) (x y : Json) (items : List Json) :
    itemsText level (x :: y :: items) = (indentation level).toList ++ ((x.render level).toList ++
      ',' :: '\n' :: itemsText level (y :: items)) := by
  simp [itemsText]

theorem value_indented {x : Json} (hx : ReadsBack x) {level fuel : Nat} {rest : List Char}
    (hfuel : (x.render level).toList.length ≤ fuel) (hrest : StopsAt continuesNumber rest) :
    value fuel ((indentation level).toList ++ ((x.render level).toList ++ rest)) =
      some (x, rest) :=
  (value_congr (skipBlanks_indentation level _) fuel).trans (hx level fuel rest hfuel hrest)

theorem items_itemsText {level : Nat} {xs : List Json} {tail rest : List Char}
    (hxs : ∀ x ∈ xs, ReadsBack x) (hne : xs ≠ []) (htail : StopsAt continuesNumber tail)
    (hclose : skipBlanks tail = ']' :: rest) {fuel : Nat}
    (hfuel : (itemsText level xs).length < fuel) :
    Parser.items fuel (itemsText level xs ++ tail) = some (xs, rest) := by
  induction xs generalizing fuel with
  | nil => exact absurd rfl hne
  | cons x xs ih =>
    obtain ⟨fuel, rfl⟩ := Nat.exists_eq_add_one_of_ne_zero (Nat.ne_zero_of_lt hfuel)
    have hx := hxs x List.mem_cons_self
    cases xs with
    | nil =>
      rw [itemsText_singleton, List.length_append] at hfuel
      rw [itemsText_singleton, List.append_assoc, Parser.items,
        value_indented hx (by omega) htail]
      simp [hclose]
    | cons y ys =>
      rw [itemsText_cons] at hfuel ⊢
      simp only [List.length_append, List.length_cons] at hfuel
      have hmore : Parser.items fuel (itemsText level (y :: ys) ++ tail) = some (y :: ys, rest) :=
        ih (fun z hz => hxs z (List.mem_cons_of_mem x hz)) (List.cons_ne_nil y ys) (by omega)
      rw [← items_congr (skipBlanks_newline _)] at hmore
      simp only [List.append_assoc, List.cons_append]
      rw [Parser.items, value_indented hx (by omega) (by rintro c ⟨⟩; rfl)]
      simp [skipBlanks_of_not, isBlank, hmore]

theorem value_close (fuel : Nat) (cs : List Char) : value fuel (']' :: cs) = none := by
  cases fuel with
  | zero => simp only [value]
  | succ fuel =>
    have hwhole : wholeDigits (']' :: cs) = none := by
      simp [wholeDigits, digits1, List.span_eq_takeWhile_dropWhile]
    simp [skipBlanks, isBlank, Parser.number, hwhole]

theorem not_close_of_items {fuel : Nat} {cs ds : List Char} {r : List Json × List Char}
    (h : Parser.items fuel cs = some r) : skipBlanks cs ≠ ']' :: ds := by
  intro hclose
  cases fuel with
  | zero => simp only [Parser.items] at h; cases h
  | succ fuel =>
    have hnone : value fuel cs = none := by
      rw [value_congr (hclose.trans (skipBlanks_of_not rfl ds).symm), value_close]
    rw [Parser.items, hnone] at h
    cases h

theorem value_array {fuel : Nat} {cs rest : List Char} {xs : List Json}
    (h : Parser.items fuel cs = some (xs, rest)) :
    value (fuel + 1) ('[' :: cs) = some (.array xs, rest) := by
  rw [value, skipBlanks_of_not rfl]
  simp only
  split
  · next hclose => exact absurd hclose (not_close_of_items h)
  · rw [items_congr (skipBlanks_idem cs), h]
    rfl

theorem readsBack_array {xs : List Json} (hxs : ∀ x ∈ xs, ReadsBack x) :
    ReadsBack (.array xs) := by
  intro level fuel rest hfuel hrest
  cases xs with
  | nil =>
    rw [render] at hfuel ⊢
    cases fuel with
    | zero => cases hfuel
    | succ fuel => simp [skipBlanks, isBlank]
  | cons x xs =>
    have htext : (render level (.array (x :: xs))).toList ++ rest =
        '[' :: '\n' :: (itemsText (level + 1) (x :: xs) ++
          '\n' :: ((indentation level).toList ++ ']' :: rest)) := by
      rw [render]
      · simp [itemsText]
      · exact List.cons_ne_nil x xs
    have hlength := congrArg List.length htext
    simp only [List.length_append, List.length_cons] at hlength
    obtain ⟨fuel, rfl⟩ := Nat.exists_eq_add_one_of_ne_zero (by omega : fuel ≠ 0)
    have hclose : skipBlanks ('\n' :: ((indentation level).toList ++ ']' :: rest)) =
        ']' :: rest := skipBlanks_indentation level _
    have hitems : Parser.items fuel (itemsText (level + 1) (x :: xs) ++
        '\n' :: ((indentation level).toList ++ ']' :: rest)) = some (x :: xs, rest) :=
      items_itemsText hxs (List.cons_ne_nil x xs) (by rintro c ⟨⟩; rfl) hclose (by omega)
    rw [htext]
    exact value_array ((items_congr (skipBlanks_newline _) fuel).trans hitems)

def fieldsText (level : Nat) (fields : List (Literal × Json)) : List Char :=
  (",\n".intercalate (renderFields level fields)).toList

def fieldText (level : Nat) (name : String) (x : Json) : List Char :=
  '"' :: (name.toList.flatMap escaped ++ '"' :: ':' :: ' ' :: (x.render level).toList)

theorem fieldsText_singleton (level : Nat) (name : String) (x : Json) :
    fieldsText level [(some name, x)] = (indentation level).toList ++ fieldText level name x := by
  simp [fieldsText, fieldText, toList_literalText]

theorem fieldsText_cons (level : Nat) (name : String) (x : Json) (f : Literal × Json)
    (fields : List (Literal × Json)) : fieldsText level ((some name, x) :: f :: fields) =
      (indentation level).toList ++ (fieldText level name x ++
        ',' :: '\n' :: fieldsText level (f :: fields)) := by
  simp [fieldsText, fieldText, toList_literalText]

theorem value_fieldText {x : Json} (hx : ReadsBack x) {name : String} {level fuel : Nat}
    {tail : List Char} (hfuel : (fieldText level name x).length ≤ fuel)
    (htail : StopsAt continuesNumber tail) :
    value fuel (' ' :: ((x.render level).toList ++ tail)) = some (x, tail) := by
  have hblank : skipBlanks (' ' :: ((x.render level).toList ++ tail)) =
      skipBlanks ((x.render level).toList ++ tail) := rfl
  rw [value_congr hblank]
  simp only [fieldText, List.length_cons, List.length_append] at hfuel
  exact hx level fuel tail (by omega) htail

theorem fields_fieldText_last {x : Json} (hx : ReadsBack x) (name : String) {level fuel : Nat}
    {tail rest : List Char} (hfuel : (fieldText level name x).length ≤ fuel)
    (htail : StopsAt continuesNumber tail) (hclose : skipBlanks tail = '\x7d' :: rest) :
    Parser.fields (fuel + 1) ((indentation level).toList ++ (fieldText level name x ++ tail)) =
      some ([(some name, x)], rest) := by
  have hvalue := value_fieldText hx hfuel htail
  rw [fields_congr (skipBlanks_indentation level _), fieldText, Parser.fields]
  simp [skipBlanks_of_not, isBlank, literal_quoted, hvalue, hclose]

theorem fields_fieldText_more {x : Json} (hx : ReadsBack x) (name : String) {level fuel : Nat}
    {tail rest : List Char} {fs : List (Literal × Json)}
    (hfuel : (fieldText level name x).length ≤ fuel)
    (hmore : Parser.fields fuel tail = some (fs, rest)) :
    Parser.fields (fuel + 1) ((indentation level).toList ++
      (fieldText level name x ++ ',' :: tail)) = some ((some name, x) :: fs, rest) := by
  have hstop : StopsAt continuesNumber (',' :: tail) := by rintro c ⟨⟩; rfl
  have hvalue := value_fieldText hx hfuel hstop
  rw [fields_congr (skipBlanks_indentation level _), fieldText, Parser.fields]
  simp [skipBlanks_of_not, isBlank, literal_quoted, hvalue, hmore]

theorem fields_fieldsText {level : Nat} {fs : List (Literal × Json)} {tail rest : List Char}
    (hnames : ∀ f ∈ fs, f.1.isSome) (hfs : ∀ f ∈ fs, ReadsBack f.2) (hne : fs ≠ [])
    (htail : StopsAt continuesNumber tail) (hclose : skipBlanks tail = '\x7d' :: rest) {fuel : Nat}
    (hfuel : (fieldsText level fs).length < fuel) :
    Parser.fields fuel (fieldsText level fs ++ tail) = some (fs, rest) := by
  induction fs generalizing fuel with
  | nil => exact absurd rfl hne
  | cons f fs ih =>
    obtain ⟨fuel, rfl⟩ := Nat.exists_eq_add_one_of_ne_zero (Nat.ne_zero_of_lt hfuel)
    obtain ⟨literal, x⟩ := f
    obtain ⟨name, rfl⟩ := Option.isSome_iff_exists.mp (hnames _ List.mem_cons_self)
    have hx : ReadsBack x := hfs _ List.mem_cons_self
    cases fs with
    | nil =>
      rw [fieldsText_singleton, List.length_append] at hfuel
      rw [fieldsText_singleton, List.append_assoc]
      exact fields_fieldText_last hx name (by omega) htail hclose
    | cons g fs =>
      rw [fieldsText_cons] at hfuel ⊢
      simp only [List.length_append, List.length_cons] at hfuel
      have hmore : Parser.fields fuel (fieldsText level (g :: fs) ++ tail) = some (g :: fs, rest) :=
        ih (fun f hf => hnames f (List.mem_cons_of_mem _ hf))
          (fun f hf => hfs f (List.mem_cons_of_mem _ hf)) (List.cons_ne_nil g fs) (by omega)
      rw [← fields_congr (skipBlanks_newline _)] at hmore
      simp only [List.append_assoc, List.cons_append]
      exact fields_fieldText_more hx name (by omega) hmore

theorem not_close_of_fields {fuel : Nat} {cs ds : List Char}
    {r : List (Literal × Json) × List Char} (h : Parser.fields fuel cs = some r) :
    skipBlanks cs ≠ '\x7d' :: ds := by
  intro hclose
  cases fuel with
  | zero => simp only [Parser.fields] at h; cases h
  | succ fuel =>
    rw [Parser.fields, hclose] at h
    cases h

theorem value_object {fuel : Nat} {cs rest : List Char} {fs : List (Literal × Json)}
    (h : Parser.fields fuel cs = some (fs, rest)) :
    value (fuel + 1) ('\x7b' :: cs) = some (.object fs, rest) := by
  rw [value, skipBlanks_of_not rfl]
  simp only
  split
  · next hclose => exact absurd hclose (not_close_of_fields h)
  · rw [fields_congr (skipBlanks_idem cs), h]
    rfl

theorem readsBack_object {fs : List (Literal × Json)} (hnames : ∀ f ∈ fs, f.1.isSome)
    (hfs : ∀ f ∈ fs, ReadsBack f.2) : ReadsBack (.object fs) := by
  intro level fuel rest hfuel hrest
  cases fs with
  | nil =>
    rw [render] at hfuel ⊢
    cases fuel with
    | zero => cases hfuel
    | succ fuel => simp [skipBlanks, isBlank]
  | cons f fs =>
    have htext : (render level (.object (f :: fs))).toList ++ rest =
        '\x7b' :: '\n' :: (fieldsText (level + 1) (f :: fs) ++
          '\n' :: ((indentation level).toList ++ '\x7d' :: rest)) := by
      rw [render]
      · simp [fieldsText]
      · exact List.cons_ne_nil f fs
    have hlength := congrArg List.length htext
    simp only [List.length_append, List.length_cons] at hlength
    obtain ⟨fuel, rfl⟩ := Nat.exists_eq_add_one_of_ne_zero (by omega : fuel ≠ 0)
    have hclose : skipBlanks ('\n' :: ((indentation level).toList ++ '\x7d' :: rest)) =
        '\x7d' :: rest := skipBlanks_indentation level _
    have hfields : Parser.fields fuel (fieldsText (level + 1) (f :: fs) ++
        '\n' :: ((indentation level).toList ++ '\x7d' :: rest)) = some (f :: fs, rest) :=
      fields_fieldsText hnames hfs (List.cons_ne_nil f fs) (by rintro c ⟨⟩; rfl) hclose (by omega)
    rw [htext]
    exact value_object ((fields_congr (skipBlanks_newline _) fuel).trans hfields)

theorem WellFormed.readsBack {j : Json} (h : j.WellFormed) : ReadsBack j := by
  induction h with
  | null => exact readsBack_null
  | bool b => exact readsBack_bool b
  | number hn => exact readsBack_number hn
  | string s => exact readsBack_string s
  | array _ ih => exact readsBack_array ih
  | object hnames _ ih => exact readsBack_object hnames ih

theorem parse?_of_value {text : String} {j : Json}
    (h : value (text.toList.length + 1) text.toList = some (j, [])) : parse? text = some j := by
  simp only [parse?, h, Option.bind_eq_bind, Option.bind_some]
  rfl

/-- Printing loses nothing, so a text that is printed is read as what it was printed for. -/
theorem parse?_pretty {j : Json} (h : j.WellFormed) : parse? j.pretty = some j := by
  refine parse?_of_value ?_
  have hvalue := h.readsBack 0 ((j.render 0).toList.length + 1) [] (Nat.le_add_right _ 1)
    (by rintro c ⟨⟩)
  rwa [List.append_nil] at hvalue

end Json

end YieldPlan
