import Mathlib.Algebra.Group.Int.Defs
import Mathlib.Algebra.Group.Nat.Defs
import Mathlib.Data.List.Basic

/-!
# Bytes as text: lines, fields and decimal numbers

The text formats of this development are all of one kind: records on lines,
fields between separators or white space, integers in decimal. This file is
the part that knows no format: how `std::getline` cuts lines, how a
separator cuts fields, how an integer is printed and how a leading integer
is read back. The round trips are stated with a rest behind the printed
text, since a number or a line is never alone in its file.
-/

namespace TinyKV.Text

/-- The fields between separators: one more than there are separators. -/
def splitOn (sep : UInt8) : List UInt8 → List (List UInt8)
  | [] => [[]]
  | c :: cs =>
    if c = sep then [] :: splitOn sep cs
    else match splitOn sep cs with
      | [] => [[c]]
      | part :: parts => (c :: part) :: parts

/-- The lines `std::getline` returns one after the other: a last line need
not end in the separator, and an empty rest is no line. -/
def getlines (sep : UInt8) : List UInt8 → List (List UInt8)
  | [] => []
  | c :: cs =>
    if c = sep then [] :: getlines sep cs
    else match getlines sep cs with
      | [] => [[c]]
      | line :: lines => (c :: line) :: lines

variable {sep c : UInt8} {field line rest : List UInt8} {n : Nat}

theorem splitOn_of_notMem (h : sep ∉ field) : splitOn sep field = [field] := by
  induction field with
  | nil => rfl
  | cons c cs ih =>
    simp only [List.mem_cons, not_or] at h
    rw [splitOn, if_neg (Ne.symm h.1), ih h.2]

theorem splitOn_append_sep (h : sep ∉ field) (rest : List UInt8) :
    splitOn sep (field ++ sep :: rest) = field :: splitOn sep rest := by
  induction field with
  | nil => simp [splitOn]
  | cons c cs ih =>
    simp only [List.mem_cons, not_or] at h
    rw [List.cons_append, splitOn, if_neg (Ne.symm h.1), ih h.2]

theorem getlines_append_sep (h : sep ∉ line) (rest : List UInt8) :
    getlines sep (line ++ sep :: rest) = line :: getlines sep rest := by
  induction line with
  | nil => simp [getlines]
  | cons c cs ih =>
    simp only [List.mem_cons, not_or] at h
    rw [List.cons_append, getlines, if_neg (Ne.symm h.1), ih h.2]

/-- A last line without its separator. -/
theorem getlines_of_notMem (h : sep ∉ line) (hne : line ≠ []) : getlines sep line = [line] := by
  induction line with
  | nil => exact absurd rfl hne
  | cons c cs ih =>
    simp only [List.mem_cons, not_or] at h
    cases cs with
    | nil => rw [getlines, if_neg (Ne.symm h.1)]; rfl
    | cons c' cs => rw [getlines, if_neg (Ne.symm h.1), ih h.2 (by simp)]

/-- Lines with a separator after each are read back as they are. -/
theorem getlines_flatMap {α : Type*} {line : α → List UInt8} {items : List α}
    (h : ∀ item ∈ items, sep ∉ line item) :
    getlines sep (items.flatMap fun item => line item ++ [sep]) = items.map line := by
  induction items with
  | nil => rfl
  | cons item items ih =>
    rw [List.flatMap_cons, List.append_assoc, List.singleton_append,
      getlines_append_sep (h item List.mem_cons_self), List.map_cons]
    rw [ih fun i hi => h i (List.mem_cons_of_mem _ hi)]

/-- A line has no separator in it, and only bytes of the text. -/
theorem mem_of_mem_getlines {text : List UInt8} (hline : line ∈ getlines sep text) (hc : c ∈ line) :
    c ≠ sep ∧ c ∈ text := by
  induction text generalizing line with
  | nil => cases hline
  | cons b rest ih =>
    have hrest : ∀ {l}, l ∈ getlines sep rest → c ∈ l → c ≠ sep ∧ c ∈ b :: rest := by
      intro l hl hcl
      exact ⟨(ih hl hcl).1, List.mem_cons_of_mem b (ih hl hcl).2⟩
    rw [getlines] at hline
    split at hline
    · rcases List.mem_cons.mp hline with rfl | hline
      · cases hc
      · exact hrest hline hc
    · next hb =>
      -- the byte joins the line in front of it, or is a last line of its own
      split at hline
      · obtain rfl := List.mem_singleton.mp hline
        obtain rfl := List.mem_singleton.mp hc
        exact ⟨hb, List.mem_cons_self⟩
      · next first lines heq =>
        rcases List.mem_cons.mp hline with rfl | hline
        · rcases List.mem_cons.mp hc with rfl | hc
          · exact ⟨hb, List.mem_cons_self⟩
          · exact hrest (heq ▸ List.mem_cons_self) hc
        · exact hrest (heq ▸ List.mem_cons_of_mem _ hline) hc

/-- A beginning of a field, a separator and a rest ends in the field or
behind the separator. -/
theorem isPrefix_append_sep {t : List UInt8} (h : t <+: field ++ sep :: rest) :
    t <+: field ∨ ∃ u, t = field ++ sep :: u ∧ u <+: rest := by
  induction field generalizing t with
  | nil =>
    cases t with
    | nil => exact Or.inl List.nil_prefix
    | cons c t =>
      obtain ⟨rfl, ht⟩ := List.cons_prefix_cons.mp h
      exact Or.inr ⟨t, rfl, ht⟩
  | cons c cs ih =>
    cases t with
    | nil => exact Or.inl List.nil_prefix
    | cons c' t =>
      obtain ⟨rfl, ht⟩ := List.cons_prefix_cons.mp h
      rcases ih ht with ht | ⟨u, rfl, hu⟩
      · exact Or.inl (List.cons_prefix_cons.mpr ⟨rfl, ht⟩)
      · exact Or.inr ⟨u, rfl, hu⟩

/-! ## Decimal -/

def isDigit (c : UInt8) : Bool := decide (48 ≤ c.toNat) && decide (c.toNat ≤ 57)

/-- `std::isspace` in the C locale. -/
def isSpace (c : UInt8) : Bool :=
  decide (c.toNat = 32) || (decide (9 ≤ c.toNat) && decide (c.toNat ≤ 13))

def digit (n : Nat) : UInt8 := UInt8.ofNat (48 + n % 10)

/-- Decimal digits in front of an accumulator. The fuel only has to exceed
the number. -/
def natDigitsAux : Nat → Nat → List UInt8 → List UInt8
  | 0, _, acc => acc
  | fuel + 1, n, acc =>
    if n / 10 = 0 then digit n :: acc else natDigitsAux fuel (n / 10) (digit n :: acc)

def showNat (n : Nat) : List UInt8 := natDigitsAux (n + 1) n []

def showInt : Int → List UInt8
  | .ofNat n => showNat n
  | .negSucc n => 45 :: showNat (n + 1)

/-- The number a run of digits denotes. -/
def natOfDigits (ds : List UInt8) : Nat :=
  ds.foldl (fun acc c => acc * 10 + (c.toNat - 48)) 0

/-- A leading run of digits, which must not be empty, and what follows it. -/
def readNat (s : List UInt8) : Option (Nat × List UInt8) :=
  if s.takeWhile isDigit = [] then none
  else some (natOfDigits (s.takeWhile isDigit), s.dropWhile isDigit)

/-- A leading integer as `strtoll` and `operator>>` read it: white space, an
optional sign, digits. -/
def readInt (s : List UInt8) : Option (Int × List UInt8) :=
  match s.dropWhile isSpace with
  | 45 :: rest => (readNat rest).map fun r => (-(r.1 : Int), r.2)
  | 43 :: rest => (readNat rest).map fun r => ((r.1 : Int), r.2)
  | rest => (readNat rest).map fun r => ((r.1 : Int), r.2)

/-- What an `int` of 32 bits can hold. -/
def InRange32 (n : Int) : Prop := -2147483648 ≤ n ∧ n ≤ 2147483647

instance (n : Int) : Decidable (InRange32 n) := inferInstanceAs (Decidable (_ ∧ _))

/-- `in >> n` for an `int` that has to succeed. -/
def readInt32 (s : List UInt8) : Option (Int × List UInt8) :=
  (readInt s).filter fun r => decide (InRange32 r.1)

/-- `in >> n` for an `int`: what is stored over `old`, and the rest of the
stream unless it has failed. A number out of range stores the nearest one. -/
def extractInt (s : List UInt8) (old : Int) : Int × Option (List UInt8) :=
  match readInt s with
  | none => (if s.dropWhile isSpace = [] then old else 0, none)
  | some (n, rest) =>
    if n < -2147483648 then (-2147483648, none)
    else if 2147483647 < n then (2147483647, none)
    else (n, some rest)

theorem digit_toNat (n : Nat) : (digit n).toNat = 48 + n % 10 := by
  unfold digit
  rw [UInt8.toNat_ofNat']
  omega

theorem isDigit_digit (n : Nat) : isDigit (digit n) = true := by
  simp only [isDigit, digit_toNat, Bool.and_eq_true, decide_eq_true_iff]
  omega

theorem natDigitsAux_append (fuel n : Nat) (acc : List UInt8) :
    natDigitsAux fuel n acc = natDigitsAux fuel n [] ++ acc := by
  induction fuel generalizing n acc with
  | zero => simp [natDigitsAux]
  | succ fuel ih =>
    simp only [natDigitsAux]
    split
    · simp
    · rw [ih (n / 10) (digit n :: acc), ih (n / 10) [digit n], List.append_assoc,
        List.singleton_append]

theorem natDigitsAux_spec {fuel : Nat} (h : n < fuel) :
    natDigitsAux fuel n [] ≠ [] ∧ (∀ c ∈ natDigitsAux fuel n [], isDigit c = true) ∧
      natOfDigits (natDigitsAux fuel n []) = n := by
  induction fuel generalizing n with
  | zero => omega
  | succ fuel ih =>
    simp only [natDigitsAux]
    split
    · next hz =>
      refine ⟨by simp, ?_, ?_⟩
      · intro c hc
        rw [List.mem_singleton.mp hc]
        exact isDigit_digit n
      · simp only [natOfDigits, List.foldl_cons, List.foldl_nil, digit_toNat]
        omega
    · next hz =>
      obtain ⟨h1, h2, h3⟩ := ih (n := n / 10) (by omega)
      rw [natDigitsAux_append]
      refine ⟨by simp, ?_, ?_⟩
      · intro c hc
        rcases List.mem_append.mp hc with hc | hc
        · exact h2 c hc
        · rw [List.mem_singleton.mp hc]
          exact isDigit_digit n
      · unfold natOfDigits at h3 ⊢
        rw [List.foldl_append, h3]
        simp only [List.foldl_cons, List.foldl_nil, digit_toNat]
        omega

theorem showNat_ne_nil (n : Nat) : showNat n ≠ [] :=
  (natDigitsAux_spec (Nat.lt_succ_self n)).1

/-- Only zero is printed with a leading zero. -/
theorem natDigitsAux_head {fuel : Nat} (h : n < fuel)
    (h0 : (natDigitsAux fuel n []).head? = some 48) : n = 0 := by
  induction fuel generalizing n with
  | zero => omega
  | succ fuel ih =>
    simp only [natDigitsAux] at h0
    split at h0
    · next hz =>
      injection h0 with h0
      have hd := digit_toNat n
      rw [h0] at hd
      have h48 : (48 : UInt8).toNat = 48 := rfl
      omega
    · next hz =>
      obtain ⟨hne, -, -⟩ : _ := natDigitsAux_spec (show n / 10 < fuel by omega)
      obtain ⟨c, cs, hcs⟩ := List.exists_cons_of_ne_nil hne
      rw [natDigitsAux_append, hcs] at h0
      have := ih (n := n / 10) (by omega) (by rw [hcs]; exact h0)
      omega

theorem showNat_digits (h : c ∈ showNat n) : isDigit c = true :=
  (natDigitsAux_spec (Nat.lt_succ_self n)).2.1 c h

theorem natOfDigits_showNat (n : Nat) : natOfDigits (showNat n) = n :=
  (natDigitsAux_spec (Nat.lt_succ_self n)).2.2

theorem readNat_showNat (n : Nat) (h : ∀ c ∈ rest.head?, isDigit c = false) :
    readNat (showNat n ++ rest) = some (n, rest) := by
  have htake : (showNat n ++ rest).takeWhile isDigit = showNat n := by
    rw [List.takeWhile_append_of_pos fun c hc => showNat_digits hc]
    cases rest with
    | nil => simp
    | cons c cs => simp [h c (by simp)]
  have hdrop : (showNat n ++ rest).dropWhile isDigit = rest := by
    rw [List.dropWhile_append_of_pos fun c hc => showNat_digits hc]
    cases rest with
    | nil => simp
    | cons c cs => simp [h c (by simp)]
  rw [readNat, htake, hdrop, if_neg (showNat_ne_nil n), natOfDigits_showNat]

theorem readInt_showInt (n : Int) (h : ∀ c ∈ rest.head?, isDigit c = false) :
    readInt (showInt n ++ rest) = some (n, rest) := by
  cases n with
  | ofNat n =>
    obtain ⟨c, cs, hcs⟩ := List.exists_cons_of_ne_nil (showNat_ne_nil n)
    have hc : isDigit c = true := showNat_digits (n := n) (by rw [hcs]; simp)
    simp only [isDigit, Bool.and_eq_true, decide_eq_true_iff] at hc
    have hsp : isSpace c = false := by
      simp only [isSpace, Bool.or_eq_false_iff, Bool.and_eq_false_iff, decide_eq_false_iff_not]
      omega
    have hr := readNat_showNat n h
    rw [hcs, List.cons_append] at hr
    show readInt (showNat n ++ rest) = _
    rw [readInt, hcs, List.cons_append, List.dropWhile_cons_of_neg (by simp [hsp])]
    split
    · next heq =>
      injection heq with h1 _
      subst h1
      simp at hc
    · next heq =>
      injection heq with h1 _
      subst h1
      simp at hc
    · rw [hr]
      rfl
  | negSucc n =>
    have hr := readNat_showNat (n + 1) h
    show readInt (45 :: (showNat (n + 1) ++ rest)) = _
    have hsp : isSpace 45 = false := by decide
    rw [readInt, List.dropWhile_cons_of_neg (by simp [hsp])]
    simp only [hr, Option.map_some]
    rfl

theorem readInt_showInt_end (n : Int) : readInt (showInt n) = some (n, []) := by
  have hread : readInt (showInt n ++ []) = some (n, []) := readInt_showInt n (by simp)
  rwa [List.append_nil] at hread

theorem showInt_ne_nil (n : Int) : showInt n ≠ [] := by
  intro h
  have hread := readInt_showInt_end n
  rw [h] at hread
  cases hread

theorem showInt_head {n : Int} (h : (showInt n).head? = some 48) : n = 0 := by
  cases n with
  | ofNat n =>
    have := natDigitsAux_head (Nat.lt_succ_self n) h
    rw [this]
    rfl
  | negSucc n =>
    injection h with h
    exact absurd h (by decide)

/-- A printed integer holds digits and at most a sign. -/
theorem showInt_bytes {n : Int} (h : c ∈ showInt n) : isDigit c = true ∨ c = 45 := by
  cases n with
  | ofNat n => exact Or.inl (showNat_digits h)
  | negSucc n =>
    rcases List.mem_cons.mp h with rfl | h
    · exact Or.inr rfl
    · exact Or.inl (showNat_digits h)

theorem showInt_notMem {n : Int} (hd : isDigit c = false) (hs : c ≠ 45) : c ∉ showInt n := by
  intro h
  rcases showInt_bytes h with h | h
  · rw [hd] at h
    cases h
  · exact hs h

/-! ## Words -/

/-- The next word of a stream, as `operator>>` reads a string: white space
is skipped, and the word ends before the next one. -/
def readWord (s : List UInt8) : Option (List UInt8 × List UInt8) :=
  let s := s.dropWhile isSpace
  if s = [] then none
  else some (s.takeWhile fun c => !isSpace c, s.dropWhile fun c => !isSpace c)

/-- The words a loop over `operator>>` reads. Every word is at least a byte,
so the fuel only has to be the length. -/
def wordsAux : Nat → List UInt8 → List (List UInt8)
  | 0, _ => []
  | fuel + 1, s =>
    match readWord s with
    | none => []
    | some (w, rest) => w :: wordsAux fuel rest

def words (s : List UInt8) : List (List UInt8) := wordsAux s.length s

/-- Text that `operator>>` reads back whole. -/
def IsWord (w : List UInt8) : Prop := w ≠ [] ∧ ∀ c ∈ w, isSpace c = false

instance (w : List UInt8) : Decidable (IsWord w) :=
  have : Decidable (∀ c ∈ w, isSpace c = false) := List.decidableBAll _ w
  inferInstanceAs (Decidable (w ≠ [] ∧ ∀ c ∈ w, isSpace c = false))

theorem readWord_isWord {s w : List UInt8} (h : readWord s = some (w, rest)) : IsWord w := by
  rw [readWord] at h
  have hhead := List.head?_dropWhile_not isSpace s
  cases hs : s.dropWhile isSpace with
  | nil =>
    rw [hs] at h
    cases h
  | cons c t =>
    rw [hs] at h hhead
    have hc : isSpace c = false := hhead
    have hw : (c :: t).takeWhile (fun c => !isSpace c) = w := by
      simp only [reduceCtorEq, if_false, Option.some.injEq, Prod.mk.injEq] at h
      exact h.1
    subst hw
    constructor
    · simp [hc]
    · intro b hb
      simpa using List.all_eq_true.mp List.all_takeWhile b hb

theorem readWord_word {w : List UInt8} (hw : IsWord w) (h : ∀ c ∈ rest.head?, isSpace c = true) :
    readWord (w ++ rest) = some (w, rest) := by
  obtain ⟨c, cs, rfl⟩ := List.exists_cons_of_ne_nil hw.1
  have hskip : (c :: cs ++ rest).dropWhile isSpace = c :: cs ++ rest := by
    rw [List.cons_append, List.dropWhile_cons_of_neg (by simp [hw.2 c (by simp)])]
  have hpos : ∀ b ∈ c :: cs, (!isSpace b) = true := fun b hb => by rw [hw.2 b hb]; rfl
  have htake : (c :: cs ++ rest).takeWhile (fun b => !isSpace b) = c :: cs := by
    rw [List.takeWhile_append_of_pos hpos]
    cases rest with
    | nil => simp
    | cons b bs => simp [h b (by simp)]
  have hdrop : (c :: cs ++ rest).dropWhile (fun b => !isSpace b) = rest := by
    rw [List.dropWhile_append_of_pos hpos]
    cases rest with
    | nil => simp
    | cons b bs => simp [h b (by simp)]
  simp only [readWord, hskip, htake, hdrop]
  rw [if_neg (by simp)]

theorem readWord_space (hc : isSpace c = true) (s : List UInt8) :
    readWord (c :: s) = readWord s := by
  rw [readWord, readWord, List.dropWhile_cons_of_pos hc]

theorem readInt_space (hc : isSpace c = true) (s : List UInt8) : readInt (c :: s) = readInt s := by
  rw [readInt, readInt, List.dropWhile_cons_of_pos hc]

theorem isSpace_of_isDigit (h : isDigit c = true) : isSpace c = false := by
  simp only [isDigit, Bool.and_eq_true, decide_eq_true_iff] at h
  simp only [isSpace, Bool.or_eq_false_iff, Bool.and_eq_false_iff, decide_eq_false_iff_not]
  omega

end TinyKV.Text
