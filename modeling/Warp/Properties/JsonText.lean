import Warp.Infra.Reading
import Warp.Json

/-!
# What a dumped value says

The text of a value can be read back: two values with one text have the same items, and the same
fields up to their order.
-/

namespace Warp.Json

open Infra

/-! ## Escaped characters -/

def hexValue (c : Char) : ℕ := if c.toNat < 58 then c.toNat - 48 else c.toNat - 87

theorem hexValue_hexDigit : ∀ n : Fin 16, hexValue (hexDigit n) = n := by decide

/-- The code unit of four hexadecimal digits. -/
def unitValue (a b c d : Char) : ℕ :=
  hexValue a * 4096 + hexValue b * 256 + hexValue c * 16 + hexValue d

theorem unicodeEscape_toList (n : ℕ) : (unicodeEscape n).toList =
    ['\\', 'u', hexDigit (n / 4096 % 16), hexDigit (n / 256 % 16), hexDigit (n / 16 % 16),
      hexDigit (n % 16)] := by
  simp [unicodeEscape, String.toList_append]

theorem unitValue_hexDigits {n : ℕ} (h : n < 65536) :
    unitValue (hexDigit (n / 4096 % 16)) (hexDigit (n / 256 % 16)) (hexDigit (n / 16 % 16))
      (hexDigit (n % 16)) = n := by
  have hdigit : ∀ k, hexValue (hexDigit (k % 16)) = k % 16 :=
    fun k => hexValue_hexDigit ⟨k % 16, Nat.mod_lt k (by decide)⟩
  simp only [unitValue, hdigit]
  omega

/-- The second half of a surrogate pair. -/
def readPair (high : ℕ) : List Char → Option (Char × List Char)
  | _ :: _ :: a :: b :: c :: d :: rest =>
    some (Char.ofNat (65536 + (high - 55296) * 1024 + (unitValue a b c d - 56320)), rest)
  | _ => none

def readUnicode : List Char → Option (Char × List Char)
  | a :: b :: c :: d :: rest =>
    if 55296 ≤ unitValue a b c d ∧ unitValue a b c d < 56320 then readPair (unitValue a b c d) rest
    else some (Char.ofNat (unitValue a b c d), rest)
  | _ => none

def shortEscapes : List (Char × Char) :=
  [('"', '"'), ('\\', '\\'), ('n', '\n'), ('r', '\r'), ('t', '\t'), ('b', Char.ofNat 8),
    ('f', Char.ofNat 12)]

def readEscape : List Char → Option (Char × List Char)
  | [] => none
  | c :: rest =>
    if c = 'u' then readUnicode rest
    else (shortEscapes.find? fun p => p.1 = c).map fun p => (p.2, rest)

/-- The reader of one character of a string; the quote ends the string. -/
def readChar : List Char → Option (Char × List Char)
  | [] => none
  | c :: rest =>
    if c = '"' then none
    else if c = '\\' then readEscape rest
    else some (c, rest)

theorem readChar_unicode (s : List Char) : readChar ('\\' :: 'u' :: s) = readUnicode s := by
  rw [readChar, if_neg (by decide), if_pos rfl, readEscape, if_pos rfl]

theorem readUnicode_unit {n : ℕ} (h : n < 65536) (hplain : ¬ (55296 ≤ n ∧ n < 56320))
    (s : List Char) : readChar ((unicodeEscape n).toList ++ s) = some (Char.ofNat n, s) := by
  rw [unicodeEscape_toList]
  simp only [List.cons_append, List.nil_append, readChar_unicode]
  rw [readUnicode, unitValue_hexDigits h, if_neg hplain]

theorem readUnicode_pair {k : ℕ} (h : k < 1048576) (s : List Char) :
    readChar ((unicodeEscape (55296 + k / 1024)).toList ++
      ((unicodeEscape (56320 + k % 1024)).toList ++ s)) = some (Char.ofNat (65536 + k), s) := by
  rw [unicodeEscape_toList, unicodeEscape_toList]
  simp only [List.cons_append, List.nil_append, readChar_unicode]
  rw [readUnicode, unitValue_hexDigits (by omega), if_pos (by omega), readPair,
    unitValue_hexDigits (by omega)]
  refine congrArg (fun n => some (Char.ofNat n, s)) ?_
  omega

theorem read_escapeChar (c : Char) (s : List Char) :
    readChar ((escapeChar c).toList ++ s) = some (c, s) := by
  have hvalid : c.toNat < 55296 ∨ 57343 < c.toNat ∧ c.toNat < 1114112 := c.valid
  have hchar : ∀ n, c.toNat = n → c = Char.ofNat n := by
    rintro n rfl
    exact c.ofNat_toNat.symm
  unfold escapeChar
  by_cases hquote : c = '"'
  · subst hquote; rfl
  rw [if_neg hquote]
  by_cases hslash : c = '\\'
  · subst hslash; rfl
  rw [if_neg hslash]
  by_cases hnewline : c = '\n'
  · subst hnewline; rfl
  rw [if_neg hnewline]
  by_cases hreturn : c = '\r'
  · subst hreturn; rfl
  rw [if_neg hreturn]
  by_cases htab : c = '\t'
  · subst htab; rfl
  rw [if_neg htab]
  by_cases hback : c.toNat = 8
  · rw [hchar 8 hback]; rfl
  rw [if_neg hback]
  by_cases hfeed : c.toNat = 12
  · rw [hchar 12 hfeed]; rfl
  rw [if_neg hfeed]
  by_cases hprint : 32 ≤ c.toNat ∧ c.toNat ≤ 126
  · rw [if_pos hprint]
    simp [readChar, hquote, hslash]
  rw [if_neg hprint]
  by_cases hbasic : c.toNat < 65536
  · rw [if_pos hbasic, readUnicode_unit hbasic (by omega), Char.ofNat_toNat]
  · rw [if_neg hbasic, String.toList_append, List.append_assoc, readUnicode_pair (by omega),
      show 65536 + (c.toNat - 65536) = c.toNat by omega, Char.ofNat_toNat]

def escapeCode : MarkedCode (fun c : Char => (escapeChar c).toList) '"' where
  read := readChar
  read_code := read_escapeChar
  read_mark _ := rfl

theorem quote_toList (s : String) :
    (quote s).toList = '"' :: (s.toList.flatMap (fun c => (escapeChar c).toList) ++ ['"']) := by
  simp [quote, String.toList_append, String.toList_join, List.flatMap_map]

theorem read_quote {a b : String} {s t : List Char}
    (h : (quote a).toList ++ s = (quote b).toList ++ t) : a = b ∧ s = t := by
  simp only [quote_toList, List.cons_append, List.append_assoc, List.cons.injEq, true_and,
    List.nil_append] at h
  obtain ⟨hl, hst⟩ := escapeCode.read_all h
  exact ⟨String.toList_inj.mp hl, hst⟩

/-! ## Kinds of values -/

inductive Kind where
  | null
  | bool
  | int
  | str
  | arr
  | obj
deriving DecidableEq, Repr

def kind : Json → Kind
  | null => .null
  | bool _ => .bool
  | int _ => .int
  | str _ => .str
  | arr _ => .arr
  | obj _ => .obj

/-- The kind of the values whose text begins with the character. -/
def kindOf? (c : Char) : Option Kind :=
  if c = 'n' then some .null
  else if c = 't' ∨ c = 'f' then some .bool
  else if c = '"' then some .str
  else if c = '[' then some .arr
  else if c = '\x7b' then some .obj
  else if c.isDigit ∨ c = '-' then some .int
  else none

theorem int_chars {n : ℤ} {c : Char} (h : c ∈ (toString n).toList) : c.isDigit ∨ c = '-' := by
  have hnat : ∀ {m : ℕ}, c ∈ m.repr.toList → c.isDigit := by
    intro m hm
    rw [Nat.toList_repr] at hm
    exact Nat.isDigit_of_mem_toDigits (by decide) (by decide) hm
  rw [Int.toString_eq_repr, Int.repr_eq_if] at h
  split at h
  · exact Or.inl (hnat h)
  · rw [String.toList_append] at h
    rcases List.mem_append.mp h with h | h
    · exact Or.inr (by simpa using h)
    · exact Or.inl (hnat h)

theorem int_ne_nil (n : ℤ) : (toString n).toList ≠ [] := by
  rw [Int.toString_eq_repr, Int.repr_eq_if]
  split <;> simp [String.toList_append]

theorem kindOf?_number {c : Char} (h : c.isDigit ∨ c = '-') : kindOf? c = some .int := by
  rcases h with h | rfl
  · have hne : ∀ d : Char, d.isDigit = false → c ≠ d := by
      rintro d hd rfl
      rw [h] at hd
      cases hd
    simp [kindOf?, h, hne 'n' rfl, hne 't' rfl, hne 'f' rfl, hne '"' rfl, hne '[' rfl,
      hne '\x7b' rfl]
  · rfl

theorem kind_dumps (v : Json) (s : List Char) :
    ∃ c rest, (dumps v).toList ++ s = c :: rest ∧ kindOf? c = some v.kind := by
  cases v with
  | null => exact ⟨'n', _, rfl, rfl⟩
  | bool b =>
    cases b with
    | true => exact ⟨'t', _, rfl, rfl⟩
    | false => exact ⟨'f', _, rfl, rfl⟩
  | int n =>
    obtain ⟨c, rest, hc⟩ := List.exists_cons_of_ne_nil (int_ne_nil n)
    refine ⟨c, rest ++ s, by rw [dumps, hc]; rfl, kindOf?_number (int_chars (n := n) ?_)⟩
    rw [hc]
    exact List.mem_cons_self
  | str a => exact ⟨'"', _, by rw [dumps, quote_toList]; rfl, rfl⟩
  | arr items => exact ⟨'[', _, by simp [dumps, String.toList_append]; rfl, rfl⟩
  | obj fields => exact ⟨'\x7b', _, by simp [dumps, String.toList_append]; rfl, rfl⟩

theorem kind_eq {v w : Json} {s t : List Char} (h : (dumps v).toList ++ s = (dumps w).toList ++ t) :
    v.kind = w.kind := by
  obtain ⟨c, _, hc, hkind⟩ := kind_dumps v s
  obtain ⟨d, _, hd, hkind'⟩ := kind_dumps w t
  rw [hc, hd] at h
  rw [(List.cons.inj h).1, hkind'] at hkind
  exact (Option.some.inj hkind).symm

/-! ## Reading values back -/

/-- What may follow a value. -/
def Delimits (c : Char) : Prop := c = ',' ∨ c = ']' ∨ c = '\x7d'

theorem delimits_comma : Delimits ',' := Or.inl rfl

theorem delimits_bracket : Delimits ']' := Or.inr (Or.inl rfl)

theorem delimits_brace : Delimits '\x7d' := Or.inr (Or.inr rfl)

def texts : Set (List Char) := Set.range fun v => (dumps v).toList

theorem mem_texts (v : Json) : (dumps v).toList ∈ texts := ⟨v, rfl⟩

def fieldText (p : String × String) : List Char := (quote p.1).toList ++ ':' :: p.2.toList

def fieldTexts : Set (List Char) := Set.range fun p : String × Json => fieldText (p.1, dumps p.2)

theorem dumpsItems_eq (items : List Json) : dumpsItems items = items.map dumps := by
  induction items with
  | nil => rfl
  | cons v items ih => rw [dumpsItems, ih]; rfl

theorem dumpsFields_eq (fields : List (String × Json)) :
    dumpsFields fields = fields.map fun p => (p.1, dumps p.2) := by
  induction fields with
  | nil => rfl
  | cons p fields ih =>
    obtain ⟨k, v⟩ := p
    rw [dumpsFields, ih]
    rfl

theorem arr_toList (items : List Json) : (dumps (arr items)).toList =
    '[' :: ([','].intercalate (items.map fun v => (dumps v).toList) ++ [']']) := by
  simp [dumps, dumpsItems_eq, String.toList_append, String.toList_intercalate, Function.comp_def]

theorem obj_toList (fields : List (String × Json)) : (dumps (obj fields)).toList =
    '\x7b' :: ([','].intercalate ((sortFields (dumpsFields fields)).map fieldText) ++ ['\x7d']) := by
  have htext : (String.toList ∘ fun p : String × String => quote p.1 ++ ":" ++ p.2) = fieldText := by
    funext p
    simp [fieldText, String.toList_append]
  simp [dumps, String.toList_append, String.toList_intercalate, htext]

theorem text_no_close {y : List Char} (hy : y ∈ texts) (s t : List Char) : y ++ s ≠ ']' :: t := by
  obtain ⟨v, rfl⟩ := hy
  obtain ⟨c, rest, hc, hkind⟩ := kind_dumps v s
  rw [hc]
  intro h
  rw [(List.cons.inj h).1] at hkind
  cases hkind

/-- Only a value of the same kind begins with the same character. -/
theorem reads_of {v : Json} (h : ∀ (w : Json) (s t : List Char), v.kind = w.kind →
    Stops Delimits s → Stops Delimits t → (dumps v).toList ++ s = (dumps w).toList ++ t →
      (dumps v).toList = (dumps w).toList ∧ s = t) : Reads Delimits texts (dumps v).toList := by
  intro y hy s t hs ht he
  obtain ⟨w, rfl⟩ : ∃ w : Json, (dumps w).toList = y := hy
  exact h w s t (kind_eq he) hs ht he

theorem reads_int (n : ℤ) : Reads Delimits texts (dumps (int n)).toList := by
  refine reads_of fun w s t hkind hs ht h => ?_
  cases w with
  | int m =>
    have hrun : ∀ k : ℤ, ∀ c ∈ (dumps (int k)).toList, ¬ Delimits c := by
      rintro k c hc hd
      rcases int_chars hc with hc | rfl
      · rcases hd with rfl | rfl | rfl <;> exact absurd hc (by decide)
      · rcases hd with hd | hd | hd <;> exact absurd hd (by decide)
    exact read_run (hrun n) (hrun m) hs ht h
  | null | bool | str | arr | obj => cases hkind

theorem reads_arr {items : List Json} (hitems : ∀ v ∈ items, Reads Delimits texts (dumps v).toList) :
    Reads Delimits texts (dumps (arr items)).toList := by
  refine reads_of fun w s t hkind _ _ h => ?_
  cases w with
  | arr others =>
    rw [arr_toList, arr_toList] at h ⊢
    simp only [List.cons_append, List.append_assoc, List.cons.injEq, true_and,
      List.nil_append] at h
    obtain ⟨hl, hst⟩ := read_separated delimits_comma delimits_bracket (by decide)
      (fun _ => text_no_close) (by simpa [mem_texts] using hitems) (by simp [mem_texts]) h
    exact ⟨by rw [hl], hst⟩
  | null | bool | int | str | obj => cases hkind

theorem reads_field {p : String × Json} (h : Reads Delimits texts (dumps p.2).toList) :
    Reads Delimits fieldTexts (fieldText (p.1, dumps p.2)) := by
  intro y hy s t hs ht he
  obtain ⟨q, rfl⟩ : ∃ q : String × Json, fieldText (q.1, dumps q.2) = y := hy
  simp only [fieldText, List.append_assoc, List.cons_append] at he
  obtain ⟨hkey, hrest⟩ := read_quote he
  obtain ⟨htext, hst⟩ := h _ (mem_texts q.2) s t hs ht (List.cons.inj hrest).2
  exact ⟨by simp only [fieldText, hkey, htext], hst⟩

theorem field_no_close {y : List Char} (hy : y ∈ fieldTexts) (s t : List Char) :
    y ++ s ≠ '\x7d' :: t := by
  obtain ⟨p, rfl⟩ := hy
  simp [fieldText, quote_toList]

theorem mem_sortFields {fields : List (String × Json)} {p : String × String}
    (h : p ∈ sortFields (dumpsFields fields)) : ∃ q ∈ fields, (q.1, dumps q.2) = p := by
  rw [sortFields, mem_orderBy, dumpsFields_eq] at h
  exact List.mem_map.mp h

theorem reads_obj {fields : List (String × Json)}
    (hfields : ∀ p ∈ fields, Reads Delimits texts (dumps p.2).toList) :
    Reads Delimits texts (dumps (obj fields)).toList := by
  refine reads_of fun w s t hkind _ _ h => ?_
  cases w with
  | obj others =>
    rw [obj_toList, obj_toList] at h ⊢
    simp only [List.cons_append, List.append_assoc, List.cons.injEq, true_and,
      List.nil_append] at h
    obtain ⟨hl, hst⟩ := read_separated delimits_comma delimits_brace (by decide)
      (fun _ => field_no_close)
      (fun x hx => by
        obtain ⟨p, hp, rfl⟩ := List.mem_map.mp hx
        obtain ⟨q, hq, rfl⟩ := mem_sortFields hp
        exact ⟨reads_field (hfields q hq), q, rfl⟩)
      (fun y hy => by
        obtain ⟨p, hp, rfl⟩ := List.mem_map.mp hy
        obtain ⟨q, _, rfl⟩ := mem_sortFields hp
        exact ⟨q, rfl⟩) h
    exact ⟨by rw [hl], hst⟩
  | null | bool | int | str | arr => cases hkind

/-- The text of a value ends where it ends, whatever comes after it. -/
theorem dumps_reads (v : Json) : Reads Delimits texts (dumps v).toList := by
  match v with
  | int n => exact reads_int n
  | arr items => exact reads_arr fun w hw => dumps_reads w
  | obj fields => exact reads_obj fun p hp => dumps_reads p.2
  | null =>
    refine reads_of fun w s t hkind _ _ h => ?_
    cases w with
    | null => exact ⟨rfl, List.append_cancel_left h⟩
    | bool | int | str | arr | obj => cases hkind
  | bool b =>
    refine reads_of fun w s t hkind _ _ h => ?_
    cases w with
    | bool c =>
      cases b <;> cases c <;> first
        | exact ⟨rfl, List.append_cancel_left h⟩
        | exact absurd (List.cons.inj h).1 (by decide)
    | null | int | str | arr | obj => cases hkind
  | str a =>
    refine reads_of fun w s t hkind _ _ h => ?_
    cases w with
    | str b =>
      obtain ⟨rfl, hst⟩ := read_quote h
      exact ⟨rfl, hst⟩
    | null | bool | int | arr | obj => cases hkind
termination_by sizeOf v
decreasing_by
  · have hsize := List.sizeOf_lt_of_mem hw
    simp only [arr.sizeOf_spec]
    omega
  · have hsize := List.sizeOf_lt_of_mem hp
    obtain ⟨k, w⟩ := p
    simp only [obj.sizeOf_spec, Prod.mk.sizeOf_spec] at hsize ⊢
    omega

/-! ## Values with one text -/

theorem kind_of_dumps {v w : Json} (h : dumps v = dumps w) : v.kind = w.kind :=
  @kind_eq v w [] [] (by rw [h])

@[simp] theorem dumps_str {a b : String} : dumps (str a) = dumps (str b) ↔ a = b := by
  refine ⟨fun h => ?_, fun h => by rw [h]⟩
  exact (@read_quote a b [] [] (congrArg (fun x => x.toList ++ []) h)).1

theorem nat_repr_injective {n m : ℕ} (h : n.repr = m.repr) : n = m := by
  have hdigits := congrArg String.toList h
  rw [Nat.toList_repr, Nat.toList_repr] at hdigits
  rw [← Nat.ofDigitChars_ten_toDigits (n := n), hdigits, Nat.ofDigitChars_ten_toDigits]

/-- A sign is no digit. -/
theorem nat_repr_ne_signed {n m : ℕ} : n.repr ≠ "-" ++ m.repr := by
  intro h
  have hdigits := congrArg String.toList h
  rw [Nat.toList_repr, String.toList_append] at hdigits
  have hmem : '-' ∈ Nat.toDigits 10 n := by
    rw [hdigits]
    exact List.mem_cons_self
  exact absurd (Nat.isDigit_of_mem_toDigits (by decide) (by decide) hmem) (by decide)

@[simp] theorem dumps_int {n m : ℤ} : dumps (int n) = dumps (int m) ↔ n = m := by
  refine ⟨fun h => ?_, fun h => by rw [h]⟩
  rw [dumps, dumps, Int.toString_eq_repr, Int.toString_eq_repr, Int.repr_eq_if,
    Int.repr_eq_if] at h
  split at h <;> split at h
  · have := nat_repr_injective h
    omega
  · exact absurd h nat_repr_ne_signed
  · exact absurd h.symm nat_repr_ne_signed
  · have := nat_repr_injective ((String.append_right_inj _).mp h)
    omega

@[simp] theorem dumps_bool {b c : Bool} : dumps (bool b) = dumps (bool c) ↔ b = c := by
  cases b <;> cases c <;> decide

theorem dumps_arr {l m : List Json} : dumps (arr l) = dumps (arr m) ↔ l.map dumps = m.map dumps := by
  refine ⟨fun h => ?_, fun h => by rw [dumps, dumps, dumpsItems_eq, dumpsItems_eq, h]⟩
  have h := congrArg String.toList h
  rw [arr_toList, arr_toList] at h
  have hl := (read_separated delimits_comma delimits_bracket (by decide) (fun _ => text_no_close)
    (by simpa [mem_texts] using fun v _ => dumps_reads v) (by simp [mem_texts])
    (List.cons.inj h).2).1
  refine List.map_injective_iff.mpr (fun _ _ => String.toList_inj.mp) ?_
  simpa [Function.comp_def] using hl

theorem fieldText_injective : Function.Injective fieldText := by
  intro p q h
  obtain ⟨hkey, hrest⟩ := read_quote h
  exact Prod.ext hkey (String.toList_inj.mp (List.cons.inj hrest).2)

theorem dumps_obj {fields others : List (String × Json)} :
    dumps (obj fields) = dumps (obj others) ↔
      sortFields (dumpsFields fields) = sortFields (dumpsFields others) := by
  refine ⟨fun h => ?_, fun h => by rw [dumps, dumps, h]⟩
  have h := congrArg String.toList h
  rw [obj_toList, obj_toList] at h
  have hfield : ∀ {fs : List (String × Json)}, ∀ x ∈ (sortFields (dumpsFields fs)).map fieldText,
      Reads Delimits fieldTexts x ∧ x ∈ fieldTexts := by
    intro fs x hx
    obtain ⟨p, hp, rfl⟩ := List.mem_map.mp hx
    obtain ⟨q, _, rfl⟩ := mem_sortFields hp
    exact ⟨reads_field (dumps_reads q.2), q, rfl⟩
  have hl := (read_separated delimits_comma delimits_brace (by decide) (fun _ => field_no_close)
    hfield (fun y hy => (hfield y hy).2) (List.cons.inj h).2).1
  exact List.map_injective_iff.mpr fieldText_injective hl

theorem eq_of_same_keys {l m : List (String × String)} (hn : (l.map Prod.fst).Nodup)
    (hk : m.map Prod.fst = l.map Prod.fst) (hp : l.Perm m) : l = m := by
  refine List.ext_getElem hp.length_eq fun i hi hi' => ?_
  refine List.inj_on_of_nodup_map hn (List.getElem_mem hi) (hp.mem_iff.mpr (List.getElem_mem hi')) ?_
  have hl : i < (l.map Prod.fst).length := by simpa using hi
  have hm : i < (m.map Prod.fst).length := by simpa using hi'
  have hkey : (l.map Prod.fst)[i] = (m.map Prod.fst)[i] := by simp only [hk]
  simpa using hkey

/-- Records with the same keys have one text when their values have the same texts. -/
theorem dumps_record {fields others : List (String × Json)} (hn : (fields.map Prod.fst).Nodup)
    (hk : others.map Prod.fst = fields.map Prod.fst) : dumps (obj fields) = dumps (obj others) ↔
      fields.map (fun p => dumps p.2) = others.map (fun p => dumps p.2) := by
  have hkeys : ∀ fs : List (String × Json), (dumpsFields fs).map Prod.fst = fs.map Prod.fst := by
    intro fs
    rw [dumpsFields_eq, List.map_map]
    rfl
  have hvalues : ∀ fs : List (String × Json),
      (dumpsFields fs).map Prod.snd = fs.map fun p => dumps p.2 := by
    intro fs
    rw [dumpsFields_eq, List.map_map]
    rfl
  rw [dumps_obj, ← hvalues, ← hvalues]
  constructor
  · intro h
    have hperm : (dumpsFields fields).Perm (dumpsFields others) :=
      (perm_orderBy _ _).symm.trans ((List.Perm.of_eq h).trans (perm_orderBy _ _))
    rw [eq_of_same_keys (by rw [hkeys]; exact hn) (by rw [hkeys, hkeys, hk]) hperm]
  · intro h
    have hsame : dumpsFields fields = dumpsFields others := by
      have hzip : ∀ l : List (String × String), (l.map Prod.fst).zip (l.map Prod.snd) = l :=
        fun l => (List.zip_of_prod rfl rfl).symm
      rw [← hzip (dumpsFields fields), ← hzip (dumpsFields others), hkeys, hkeys, hk, h]
    rw [hsame]

end Warp.Json
