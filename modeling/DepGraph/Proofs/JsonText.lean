import DepGraph.Json.Reader
import DepGraph.Json.Writer
import Mathlib.Data.List.Forall2
import Mathlib.Data.List.TakeWhile

/-!
# Reading back what is written as JSON

The text of a value reads back as the value. Escapes are undone one character at a time, the
layout of containers is white space that the reader skips, and the bound on calls is enough for
every list of tokens that a value gives.
-/

namespace DepGraph.Json

section Strings

theorem stringChar?_append {cs rest : List Char} {c : Char} (h : stringChar? cs = some (c, rest))
    (more : List Char) : stringChar? (cs ++ more) = some (c, rest ++ more) := by
  unfold stringChar? at h
  split at h
  · simp only [Option.bind_eq_bind, Option.bind_eq_some_iff] at h
    obtain ⟨unit, hunit, h⟩ := h
    split at h
    · rename_i ch hch
      obtain ⟨rfl, rfl⟩ := Prod.mk.inj (Option.some.inj h)
      simp [stringChar?, hunit, hch]
    · rename_i hnone
      simp only [Option.bind_eq_some_iff, Option.map_eq_some_iff, Prod.mk.injEq] at h
      obtain ⟨low, hlow, ch, hch, rfl, rfl⟩ := h
      simp [stringChar?, hunit, hnone, hlow, hch]
    · cases h
  · rename_i e tail hshort
    obtain ⟨ch, hch, heq⟩ := Option.map_eq_some_iff.mp h
    obtain ⟨rfl, rfl⟩ := Prod.mk.inj heq
    have he : e ≠ 'u' := by
      intro he
      subst he
      cases hch
    simp [stringChar?, he, hch]
  · rename_i d tail hlong hshort
    split at h
    · cases h
    · rename_i hplain
      obtain ⟨rfl, rfl⟩ := Prod.mk.inj (Option.some.inj h)
      push Not at hplain
      simp [stringChar?, hplain]
  · cases h

theorem escape_plain {c : Char} (hc : 0x20 ≤ c.toNat) (hquote : c ≠ '"') (hslash : c ≠ '\\') :
    (escape c).toList = [c] := by
  unfold escape
  split
  case h_1 => contradiction
  case h_2 => contradiction
  case h_8 =>
    rw [if_neg (by omega), if_neg (by omega)]
    exact String.toList_singleton c
  all_goals exact absurd hc (by decide)

theorem stringChar?_escape (c : Char) : stringChar? (escape c).toList = some (c, []) := by
  by_cases hc : c.toNat < 0x20
  · have hcontrol : ∀ n < 0x20,
        stringChar? (escape (Char.ofNat n)).toList = some (Char.ofNat n, []) := by
      decide +kernel
    simpa using hcontrol c.toNat hc
  · by_cases hquote : c = '"'
    · subst hquote
      rfl
    by_cases hslash : c = '\\'
    · subst hslash
      rfl
    rw [escape_plain (by omega) hquote hslash]
    simp [stringChar?, hslash, hc]

theorem escape_ne_quote (c : Char) (more rest : List Char) :
    (escape c).toList ++ more ≠ '"' :: rest := by
  intro heq
  by_cases hquote : c = '"'
  · subst hquote
    have hslash : (escape '"').toList = ['\\', '"'] := rfl
    simp [hslash] at heq
  · have hread := stringChar?_append (stringChar?_escape c) more
    have hplain : stringChar? ('"' :: rest) = some ('"', rest) := by simp [stringChar?]
    rw [heq, hplain] at hread
    exact hquote (Prod.mk.inj (Option.some.inj hread)).1.symm

theorem stringTail?_of_char {cs rest : List Char} {c : Char} (h : stringChar? cs = some (c, rest))
    (hquote : ∀ rest, cs ≠ '"' :: rest) :
    stringTail? cs = (stringTail? rest).map fun p => (c :: p.1, p.2) := by
  rw [stringTail?.eq_def]
  split
  · rename_i rest
    exact absurd rfl (hquote rest)
  · split
    · rename_i hnone
      cases h.symm.trans hnone
    · rename_i hsome
      cases h.symm.trans hsome
      rfl

theorem stringTail?_escaped (cs rest : List Char) :
    stringTail? (cs.flatMap (fun c => (escape c).toList) ++ '"' :: rest) = some (cs, rest) := by
  induction cs with
  | nil => simp [stringTail?]
  | cons c cs ih =>
    have hread := stringChar?_append (stringChar?_escape c)
      (cs.flatMap (fun c => (escape c).toList) ++ '"' :: rest)
    rw [List.flatMap_cons, List.append_assoc,
      stringTail?_of_char hread (fun _ => escape_ne_quote c _ _), List.nil_append, ih]
    rfl

theorem toList_string (s : String) : (string s).toList =
    '"' :: (s.toList.flatMap (fun c => (escape c).toList) ++ ['"']) := by
  simp [string, List.flatMap_map]

end Strings

section Tokens

/-- The text does not go on with a character that could belong to a word. -/
def Apart (cs : List Char) : Prop := ∀ c ∈ cs.head?, isWordChar c = false

theorem apart_cons {c : Char} {cs : List Char} (h : isWordChar c = false) : Apart (c :: cs) := by
  intro d hd
  obtain rfl := Option.some.inj hd
  exact h

theorem tokens?_space {c : Char} (h : isSpace c = true) (rest : List Char) :
    tokens? (c :: rest) = tokens? rest := by
  rw [tokens?, if_pos h]

theorem tokens?_mark {c : Char} {t : Token} (h : mark? c = some t) (rest : List Char) :
    tokens? (c :: rest) = (tokens? rest).map (t :: ·) := by
  have hclass : isSpace c = false ∧ c ≠ '"' ∧ isWordChar c = false := by
    unfold mark? at h
    split at h
    case h_7 => cases h
    all_goals decide
  rw [tokens?, if_neg (by simp [hclass.1]), if_neg hclass.2.1, if_neg (by simp [hclass.2.2]), h]

theorem tokens?_string (s : String) (rest : List Char) :
    tokens? ((string s).toList ++ rest) = (tokens? rest).map (.text s :: ·) := by
  have htail := stringTail?_escaped s.toList rest
  rw [toList_string, List.cons_append, List.append_assoc, List.singleton_append, tokens?,
    if_neg (by decide), if_pos rfl]
  split
  · rename_i hnone
    cases htail.symm.trans hnone
  · rename_i hsome
    cases htail.symm.trans hsome
    rw [String.ofList_toList]

theorem tokens?_word {s : String} {rest : List Char} (hne : s.toList ≠ [])
    (hword : ∀ c ∈ s.toList, isWordChar c = true) (hrest : Apart rest) :
    tokens? (s.toList ++ rest) = (tokens? rest).map (.word s :: ·) := by
  cases hs : s.toList with
  | nil => exact absurd hs hne
  | cons c cs =>
    rw [hs, List.forall_mem_cons] at hword
    obtain ⟨hc, hcs⟩ := hword
    have hspace : ¬ isSpace c = true := by
      intro hspace
      simp only [isSpace, Bool.or_eq_true, beq_iff_eq] at hspace
      rcases hspace with ((rfl | rfl) | rfl) | rfl <;> cases hc
    have hquote : c ≠ '"' := by
      intro hquote
      subst hquote
      cases hc
    have hstop : rest.takeWhile isWordChar = [] ∧ rest.dropWhile isWordChar = rest := by
      cases rest with
      | nil => exact ⟨rfl, rfl⟩
      | cons d rest =>
        have hd := hrest d rfl
        simp [hd]
    rw [List.cons_append, tokens?, if_neg hspace, if_neg hquote, if_pos hc,
      List.takeWhile_append_of_pos hcs, List.dropWhile_append_of_pos hcs, hstop.1, hstop.2,
      List.append_nil, ← hs, String.ofList_toList]

theorem toList_margin (depth : Nat) : (margin depth).toList = List.replicate (2 * depth) ' ' := by
  rw [margin, String.pushn]
  induction 2 * depth with
  | zero => rfl
  | succ n ih => rw [Nat.repeat, String.toList_push, ih, List.replicate_succ']

theorem tokens?_margin (depth : Nat) (rest : List Char) :
    tokens? ((margin depth).toList ++ rest) = tokens? rest := by
  rw [toList_margin]
  induction 2 * depth with
  | zero => rfl
  | succ n ih => rw [List.replicate_succ, List.cons_append, tokens?_space rfl, ih]

end Tokens

section Numbers

variable {cs rest : List Char}

/-- What stands before `rest` is part of a word. -/
def Word (cs rest : List Char) : Prop :=
  ∃ taken, cs = taken ++ rest ∧ ∀ c ∈ taken, isWordChar c = true

theorem Word.cons {c : Char} (hc : isWordChar c = true) (h : Word cs rest) :
    Word (c :: cs) rest := by
  obtain ⟨taken, rfl, htaken⟩ := h
  exact ⟨c :: taken, rfl, List.forall_mem_cons.mpr ⟨hc, htaken⟩⟩

theorem Word.trans {last : List Char} (h : Word cs rest) (k : Word rest last) : Word cs last := by
  obtain ⟨taken, rfl, htaken⟩ := h
  obtain ⟨more, rfl, hmore⟩ := k
  refine ⟨taken ++ more, (List.append_assoc ..).symm, fun c hc => ?_⟩
  exact (List.mem_append.mp hc).elim (htaken c) (hmore c)

theorem Word.nil (cs : List Char) : Word cs cs := ⟨[], rfl, by simp⟩

theorem digits?_word (h : digits? cs = some rest) : cs ≠ [] ∧ Word cs rest := by
  unfold digits? at h
  split at h
  · cases h
  · rename_i hsome
    obtain rfl := Option.some.inj h
    refine ⟨?_, cs.takeWhile Char.isDigit, List.takeWhile_append_dropWhile.symm, fun c hc => ?_⟩
    · intro hnil
      subst hnil
      simp at hsome
    · have hdigit := List.mem_takeWhile_imp hc
      simp [isWordChar, Char.isAlphanum, hdigit]

theorem wholePart?_word (h : wholePart? cs = some rest) : cs ≠ [] ∧ Word cs rest := by
  unfold wholePart? at h
  split at h
  · obtain rfl := Option.some.inj h
    exact ⟨List.cons_ne_nil _ _, (Word.nil _).cons rfl⟩
  · exact digits?_word h

theorem fraction?_word (h : fraction? cs = some rest) : Word cs rest := by
  unfold fraction? at h
  split at h
  · exact (digits?_word h).2.cons rfl
  · obtain rfl := Option.some.inj h
    exact .nil _

theorem exponent?_word (h : exponent? cs = some rest) : Word cs rest := by
  unfold exponent? at h
  split at h
  · obtain rfl := Option.some.inj h
    exact .nil _
  · rename_i e sign tail
    split at h
    · rename_i he
      have hmark : isWordChar e = true := by
        rcases he with rfl | rfl <;> rfl
      split at h
      · rename_i hsign
        have hsigned : isWordChar sign = true := by
          rcases hsign with rfl | rfl <;> rfl
        exact ((digits?_word h).2.cons hsigned).cons hmark
      · exact (digits?_word h).2.cons hmark
    · cases h
  · cases h

theorem word_of_isNumber (h : isNumber cs = true) :
    cs ≠ [] ∧ ∀ c ∈ cs, isWordChar c = true := by
  have hparts {cs : List Char} (h : (((wholePart? cs).bind fraction?).bind exponent?) == some []) :
      cs ≠ [] ∧ Word cs [] := by
    obtain ⟨b, hb, hexponent⟩ := Option.bind_eq_some_iff.mp (beq_iff_eq.mp h)
    obtain ⟨a, ha, hfraction⟩ := Option.bind_eq_some_iff.mp hb
    obtain ⟨hne, hwhole⟩ := wholePart?_word ha
    exact ⟨hne, (hwhole.trans (fraction?_word hfraction)).trans (exponent?_word hexponent)⟩
  have hword : cs ≠ [] ∧ Word cs [] := by
    unfold isNumber at h
    dsimp only at h
    split at h
    · exact ⟨List.cons_ne_nil _ _, (hparts h).2.cons rfl⟩
    · exact hparts h
  obtain ⟨hne, taken, hcs, htaken⟩ := hword
  rw [List.append_nil] at hcs
  exact ⟨hne, hcs ▸ htaken⟩

theorem wordValue?_number {s : String} (h : isNumber s.toList = true) :
    wordValue? s = some (.number s) := by
  have hne {t : String} (ht : isNumber t.toList = false) : s ≠ t := by
    intro heq
    subst heq
    cases h.symm.trans ht
  rw [wordValue?, if_neg (hne (by decide +kernel)), if_neg (hne (by decide +kernel)),
    if_neg (hne (by decide +kernel)), if_pos h]

end Numbers

/-- Every number in the value is written as one. -/
inductive Writable : Value → Prop
  | null : Writable .null
  | bool (b : Bool) : Writable (.bool b)
  | number {digits : String} : isNumber digits.toList = true → Writable (.number digits)
  | text (s : String) : Writable (.text s)
  | list {items : List Value} : (∀ v ∈ items, Writable v) → Writable (.list items)
  | table {fields : List (String × Value)} : (∀ f ∈ fields, Writable f.2) →
      Writable (.table fields)

mutual

/-- The tokens of a value, whatever its layout. -/
def toTokens : Value → List Token
  | .null => [.word "null"]
  | .bool b => [.word (if b then "true" else "false")]
  | .number digits => [.word digits]
  | .text s => [.text s]
  | .list items => .openBracket :: ([.comma].intercalate (itemTokens items) ++ [.closeBracket])
  | .table fields => .openBrace :: ([.comma].intercalate (fieldTokens fields) ++ [.closeBrace])

def itemTokens : List Value → List (List Token)
  | [] => []
  | v :: vs => toTokens v :: itemTokens vs

def fieldTokens : List (String × Value) → List (List Token)
  | [] => []
  | (key, v) :: fields => (.text key :: .colon :: toTokens v) :: fieldTokens fields

end

section Layout

/-- The text gives the tokens, if what follows starts no longer word. -/
def Gives (s : String) (ts : List Token) : Prop :=
  ∀ rest, Apart rest → tokens? (s.toList ++ rest) = (tokens? rest).map (ts ++ ·)

theorem gives_word {s : String} (hne : s.toList ≠ []) (hword : s.toList.all isWordChar = true) :
    Gives s [.word s] :=
  fun _ hrest => tokens?_word hne (List.all_eq_true.mp hword) hrest

theorem gives_lines {depth : Nat} {lines : List String} {tss : List (List Token)}
    (h : List.Forall₂ Gives lines tss) {rest : List Char} (hrest : Apart rest) :
    tokens? ((",\n".intercalate (lines.map (margin depth ++ ·))).toList ++ rest) =
      (tokens? rest).map ([.comma].intercalate tss ++ ·) := by
  induction h with
  | nil => simp
  | cons hfirst hothers ih =>
    cases hothers with
    | nil =>
      rw [List.map_singleton, String.intercalate_singleton, String.toList_append, List.append_assoc,
        tokens?_margin, hfirst rest hrest, List.intercalate_singleton]
    | cons hsecond hothers =>
      have hsep (cs : List Char) : ",\n".toList ++ cs = ',' :: '\n' :: cs := rfl
      rw [List.map_cons, List.map_cons, String.intercalate_cons_cons, ← List.map_cons]
      simp only [String.toList_append, List.append_assoc]
      rw [tokens?_margin, hsep, hfirst _ (apart_cons rfl), tokens?_mark rfl, tokens?_space rfl, ih,
        List.intercalate_cons_cons]
      simp [Function.comp_def]

theorem gives_enclose {left right : String} {l r : Char} {opening closing : Token} {depth : Nat}
    {lines : List String} {tss : List (List Token)} (hl : left.toList = [l])
    (hr : right.toList = [r]) (hopen : mark? l = some opening) (hclose : mark? r = some closing)
    (h : List.Forall₂ Gives lines tss) : Gives (enclose depth left right lines)
      (opening :: ([.comma].intercalate tss ++ [closing])) := by
  intro rest _
  cases h with
  | nil =>
    simp only [enclose, String.toList_append, hl, hr]
    rw [List.append_assoc, List.singleton_append, tokens?_mark hopen, List.singleton_append,
      tokens?_mark hclose, Option.map_map]
    rfl
  | cons hfirst hothers =>
    have hbreak (cs : List Char) : "\n".toList ++ cs = '\n' :: cs := rfl
    simp only [enclose, String.toList_append, hl, hr, List.append_assoc]
    rw [List.singleton_append, tokens?_mark hopen, hbreak, tokens?_space rfl, hbreak,
      gives_lines (.cons hfirst hothers) (apart_cons rfl), tokens?_space rfl, tokens?_margin,
      List.singleton_append, tokens?_mark hclose]
    simp [Function.comp_def]

theorem gives_items {items : List Value} {depth : Nat}
    (h : ∀ v ∈ items, Gives (pretty depth v) (toTokens v)) :
    List.Forall₂ Gives (prettyItems depth items) (itemTokens items) := by
  induction items with
  | nil => exact .nil
  | cons v vs ih =>
    rw [List.forall_mem_cons] at h
    exact .cons h.1 (ih h.2)

theorem gives_fields {fields : List (String × Value)} {depth : Nat}
    (h : ∀ f ∈ fields, Gives (pretty depth f.2) (toTokens f.2)) :
    List.Forall₂ Gives (prettyFields depth fields) (fieldTokens fields) := by
  induction fields with
  | nil => exact .nil
  | cons f fields ih =>
    obtain ⟨key, v⟩ := f
    rw [List.forall_mem_cons] at h
    refine .cons ?_ (ih h.2)
    intro rest hrest
    have hcolon (cs : List Char) : ": ".toList ++ cs = ':' :: ' ' :: cs := rfl
    simp only [String.toList_append, List.append_assoc]
    rw [tokens?_string, hcolon, tokens?_mark rfl, tokens?_space rfl, h.1 rest hrest]
    simp [Function.comp_def]

/-- A written value gives its tokens, at whatever depth. -/
theorem gives_pretty {v : Value} (h : Writable v) (depth : Nat) :
    Gives (pretty depth v) (toTokens v) := by
  induction h generalizing depth with
  | null =>
    have hnull : Gives "null" [.word "null"] := gives_word (by decide) rfl
    exact hnull
  | bool b =>
    have htrue : Gives "true" [.word "true"] := gives_word (by decide) rfl
    have hfalse : Gives "false" [.word "false"] := gives_word (by decide) rfl
    cases b with
    | true => exact htrue
    | false => exact hfalse
  | number hdigits =>
    obtain ⟨hne, hword⟩ := word_of_isNumber hdigits
    exact gives_word hne (List.all_eq_true.mpr hword)
  | text s => exact fun rest _ => tokens?_string s rest
  | list _ ih =>
    rw [pretty, toTokens]
    exact gives_enclose rfl rfl rfl rfl (gives_items fun v hv => ih v hv (depth + 1))
  | table _ ih =>
    rw [pretty, toTokens]
    exact gives_enclose rfl rfl rfl rfl (gives_fields fun f hf => ih f hf (depth + 1))

end Layout

section Values

theorem toTokens_ne_nil (v : Value) : toTokens v ≠ [] := by
  cases v <;> simp [toTokens]

theorem toTokens_ne_close (v : Value) (ts rest : List Token) :
    toTokens v ++ ts ≠ .closeBracket :: rest := by
  cases v <;> simp [toTokens]

theorem exists_intercalate {α : Type} (sep x : List α) (xs : List (List α)) :
    ∃ more, sep.intercalate (x :: xs) = x ++ more := by
  cases xs with
  | nil => exact ⟨[], by simp⟩
  | cons y ys => exact ⟨sep ++ sep.intercalate (y :: ys), by simp [List.intercalate_cons_cons]⟩

theorem value?_list {n : Nat} {ts : List Token} (h : ∀ rest, ts ≠ .closeBracket :: rest) :
    value? (n + 1) (.openBracket :: ts) = (items? n ts).map fun p => (.list p.1, p.2) := by
  cases ts with
  | nil => rfl
  | cons t ts =>
    cases t <;> first | rfl | exact absurd rfl (h ts)

theorem value?_table {n : Nat} {ts : List Token} (h : ∀ rest, ts ≠ .closeBrace :: rest) :
    value? (n + 1) (.openBrace :: ts) = (fields? n ts).map fun p => (.table p.1, p.2) := by
  cases ts with
  | nil => rfl
  | cons t ts =>
    cases t <;> first | rfl | exact absurd rfl (h ts)

/-- The tokens of the value are read as it, given two calls for each: the call for the items of a
list and that for the first of them start on the same token. -/
def Reads (v : Value) : Prop :=
  ∀ n rest, 2 * (toTokens v).length ≤ n + 1 → value? n (toTokens v ++ rest) = some (v, rest)

theorem items?_itemTokens {v : Value} {vs : List Value} (h : ∀ w ∈ v :: vs, Reads w) {n : Nat}
    (hn : 2 * ([Token.comma].intercalate (itemTokens (v :: vs))).length ≤ n) (rest : List Token) :
    items? n ([Token.comma].intercalate (itemTokens (v :: vs)) ++ .closeBracket :: rest) =
      some (v :: vs, rest) := by
  induction vs generalizing v n with
  | nil =>
    have hone : [Token.comma].intercalate (itemTokens [v]) = toTokens v :=
      List.intercalate_singleton
    have hpos := List.length_pos_iff.mpr (toTokens_ne_nil v)
    rw [hone] at hn ⊢
    obtain ⟨n, rfl⟩ := Nat.exists_eq_add_one_of_ne_zero (show n ≠ 0 by omega)
    rw [items?, h v List.mem_cons_self n _ (by omega)]
  | cons w vs ih =>
    have hmore : [Token.comma].intercalate (itemTokens (v :: w :: vs)) =
        toTokens v ++ .comma :: [Token.comma].intercalate (itemTokens (w :: vs)) :=
      List.intercalate_cons_cons.trans (List.append_assoc ..)
    rw [hmore, List.length_append, List.length_cons] at hn
    obtain ⟨n, rfl⟩ := Nat.exists_eq_add_one_of_ne_zero (show n ≠ 0 by omega)
    have hrest := ih (fun u hu => h u (List.mem_cons_of_mem _ hu)) (show _ ≤ n by omega)
    rw [hmore, List.append_assoc, List.cons_append, items?,
      h v List.mem_cons_self n _ (by omega)]
    simp only [hrest, Option.map_some]

theorem fields?_fieldTokens {f : String × Value} {fs : List (String × Value)}
    (h : ∀ g ∈ f :: fs, Reads g.2) {n : Nat}
    (hn : 2 * ([Token.comma].intercalate (fieldTokens (f :: fs))).length ≤ n) (rest : List Token) :
    fields? n ([Token.comma].intercalate (fieldTokens (f :: fs)) ++ .closeBrace :: rest) =
      some (f :: fs, rest) := by
  induction fs generalizing f n with
  | nil =>
    have hone : [Token.comma].intercalate (fieldTokens [f]) = .text f.1 :: .colon :: toTokens f.2 :=
      List.intercalate_singleton
    rw [hone, List.length_cons, List.length_cons] at hn
    obtain ⟨n, rfl⟩ := Nat.exists_eq_add_one_of_ne_zero (show n ≠ 0 by omega)
    rw [hone, List.cons_append, List.cons_append, fields?,
      h f List.mem_cons_self n _ (by omega)]
  | cons g fs ih =>
    have hmore : [Token.comma].intercalate (fieldTokens (f :: g :: fs)) = .text f.1 :: .colon ::
        (toTokens f.2 ++ .comma :: [Token.comma].intercalate (fieldTokens (g :: fs))) :=
      List.intercalate_cons_cons.trans (List.append_assoc ..)
    rw [hmore, List.length_cons, List.length_cons, List.length_append, List.length_cons] at hn
    obtain ⟨n, rfl⟩ := Nat.exists_eq_add_one_of_ne_zero (show n ≠ 0 by omega)
    have hrest := ih (fun u hu => h u (List.mem_cons_of_mem _ hu)) (show _ ≤ n by omega)
    rw [hmore, List.cons_append, List.cons_append, List.append_assoc, List.cons_append, fields?,
      h f List.mem_cons_self n _ (by omega)]
    simp only [hrest, Option.map_some]

theorem reads_word {v : Value} {s : String} (htokens : toTokens v = [.word s])
    (hword : wordValue? s = some v) : Reads v := by
  intro n rest hn
  rw [htokens, List.length_singleton] at hn
  obtain ⟨n, rfl⟩ := Nat.exists_eq_add_one_of_ne_zero (show n ≠ 0 by omega)
  rw [htokens, List.singleton_append, value?, hword]
  rfl

theorem reads {v : Value} (h : Writable v) : Reads v := by
  induction h with
  | null => exact reads_word rfl rfl
  | bool b => cases b <;> exact reads_word rfl rfl
  | number hdigits => exact reads_word rfl (wordValue?_number hdigits)
  | text s =>
    intro n rest hn
    rw [toTokens, List.length_singleton] at hn
    obtain ⟨n, rfl⟩ := Nat.exists_eq_add_one_of_ne_zero (show n ≠ 0 by omega)
    rfl
  | @list items _ ih =>
    intro n rest hn
    rw [toTokens, List.length_cons, List.length_append, List.length_singleton] at hn
    obtain ⟨n, rfl⟩ := Nat.exists_eq_add_one_of_ne_zero (show n ≠ 0 by omega)
    rw [toTokens, List.cons_append, List.append_assoc, List.singleton_append]
    cases items with
    | nil => rfl
    | cons v vs =>
      have hhead (ts : List Token) : [Token.comma].intercalate (itemTokens (v :: vs)) ++
          .closeBracket :: rest ≠ .closeBracket :: ts := by
        obtain ⟨more, hmore⟩ := exists_intercalate [Token.comma] (toTokens v) (itemTokens vs)
        rw [itemTokens, hmore, List.append_assoc]
        exact toTokens_ne_close v _ _
      rw [value?_list hhead, items?_itemTokens ih (by omega)]
      rfl
  | @table fields _ ih =>
    intro n rest hn
    rw [toTokens, List.length_cons, List.length_append, List.length_singleton] at hn
    obtain ⟨n, rfl⟩ := Nat.exists_eq_add_one_of_ne_zero (show n ≠ 0 by omega)
    rw [toTokens, List.cons_append, List.append_assoc, List.singleton_append]
    cases fields with
    | nil => rfl
    | cons f fs =>
      have hhead (ts : List Token) : [Token.comma].intercalate (fieldTokens (f :: fs)) ++
          .closeBrace :: rest ≠ .closeBrace :: ts := by
        obtain ⟨more, hmore⟩ := exists_intercalate [Token.comma]
          (.text f.1 :: .colon :: toTokens f.2) (fieldTokens fs)
        rw [fieldTokens, hmore, List.append_assoc, List.cons_append]
        intro heq
        cases heq
      rw [value?_table hhead, fields?_fieldTokens ih (by omega)]
      rfl

end Values

/-- Reading undoes writing. -/
theorem parse?_render {v : Value} (h : Writable v) : parse? (render v) = some v := by
  have hend : "\n".toList = ['\n'] := rfl
  have htokens : tokens? (render v).toList = some (toTokens v) := by
    rw [render, String.toList_append, hend, gives_pretty h 0 _ (apart_cons rfl),
      tokens?_space rfl, tokens?, Option.map_some, List.append_nil]
  have hvalue := reads h (2 * (toTokens v).length + 1) [] (by omega)
  rw [List.append_nil] at hvalue
  rw [parse?, htokens]
  simp only [Option.bind_eq_bind, Option.bind_some, hvalue]

end DepGraph.Json
