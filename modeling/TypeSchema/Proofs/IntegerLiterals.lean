import Mathlib.Algebra.Ring.Int.Defs
import Mathlib.Algebra.Ring.Nat
import TypeSchema.Proofs.TypeReading
import TypeSchema.Proofs.Spelling

namespace TypeSchema

namespace Binary64

theorem of_canonical (negative : Bool) {mantissa : Nat} {exponent : Int} (h : Canonical mantissa exponent) :
    of? negative mantissa exponent = some ⟨negative, mantissa, exponent, h⟩ := dif_pos h

/-- A number whose exponent is no less than zero is an integer. -/
theorem toInt_of_nonneg (x : Binary64) (h : 0 ≤ x.exponent) :
    x.toInt? = some (Literal.signed x.negative (x.mantissa * 2 ^ x.exponent.toNat)) := by
  simp [toInt?, scaled, h, Nat.mod_one, Literal.signed]

theorem binaryOrder_of_lt {m : Nat} (hlow : 2 ^ 63 ≤ m) (hhigh : m < 2 ^ 64) : binaryOrder m 1 = 63 := by
  have hlog : m.log2 = 63 := (Nat.log2_eq_iff (by omega)).mpr ⟨hlow, hhigh⟩
  have hone : Nat.log2 1 = 0 := by decide
  have hguess : -(((63 : Nat) : Int) - ((0 : Nat) : Int)) = -63 := by decide
  have hscaled : scaled m 1 2 (-63) = (m, 2 ^ 63) := by simp [scaled]
  simp only [binaryOrder, hlog, hone, hguess, hscaled, if_pos hlow]
  decide

/-- Of an integer with sixty-four bits, the last eleven are rounded off. -/
theorem ofRatio_of_lt {m : Nat} (hlow : 2 ^ 63 ≤ m) (hhigh : m < 2 ^ 64) (negative : Bool) : ∃ x k,
    ofRatio? negative m 1 = some x ∧ x.toInt? = some (Literal.signed negative k) ∧
      2 ^ 63 ≤ k ∧ k ≤ m + 1024 ∧ m ≤ k + 1024 := by
  have hscaled : scaled m 1 2 (-11) = (m, 2048) := by simp [scaled]
  have hround : 2 ^ 52 ≤ roundHalfEven m 2048 ∧ roundHalfEven m 2048 ≤ 2 ^ 53 ∧
      2048 * roundHalfEven m 2048 ≤ m + 1024 ∧ m ≤ 2048 * roundHalfEven m 2048 + 1024 := by
    unfold roundHalfEven
    dsimp only
    split <;> omega
  have hratio : ofRatio? negative m 1 =
      if roundHalfEven m 2048 = Nat.pow 2 53 then of? negative (Nat.pow 2 52) 12
      else of? negative (roundHalfEven m 2048) 11 := by
    have hexponent : max (-1074) ((63 : Int) - 52) = 11 := by decide
    simp only [ofRatio?, binaryOrder_of_lt hlow hhigh, hexponent, hscaled]
    rfl
  generalize roundHalfEven m 2048 = mantissa at hround hratio
  obtain ⟨hleast, hgreatest, hbelow, habove⟩ := hround
  by_cases hcarry : mantissa = Nat.pow 2 53
  · have hcanonical : Canonical (Nat.pow 2 52) 12 := by decide
    refine ⟨⟨negative, Nat.pow 2 52, 12, hcanonical⟩, 2 ^ 52 * 2 ^ 12, ?_, ?_, ?_⟩
    · rw [hratio, if_pos hcarry, of_canonical negative hcanonical]
    · exact toInt_of_nonneg _ (Int.natCast_nonneg 12)
    · have hmantissa : mantissa = 2 ^ 53 := hcarry
      omega
  · have hcanonical : Canonical mantissa 11 := by
      refine ⟨?_, by decide, by decide, .inl hleast⟩
      exact lt_of_le_of_ne hgreatest hcarry
    refine ⟨⟨negative, mantissa, 11, hcanonical⟩, mantissa * 2 ^ 11, ?_, ?_, ?_⟩
    · rw [hratio, if_neg hcarry, of_canonical negative hcanonical]
    · exact toInt_of_nonneg _ (Int.natCast_nonneg 11)
    · omega

end Binary64

theorem Decimal.ofChars_digits (n : Nat) : Decimal.ofChars? (Number.digits n) = some ⟨n, 0⟩ := by
  have hd : ∀ c ∈ Number.digits n, isDigit c := fun c => isDigit_of_mem_digits
  have hwhole : (Number.digits n).takeWhile isDigit = Number.digits n := List.takeWhile_eq_self_iff.mpr hd
  have hrest : (Number.digits n).dropWhile isDigit = [] := List.dropWhile_eq_nil_iff.mpr hd
  simp [Decimal.ofChars?, hwhole, hrest, exponentOf?, Literal.ofDigits_number]

namespace Literal

/-- The digits of an integer beyond sixty-three bits are read as a decimal. -/
theorem number_digits_of_le {m : Nat} (hlow : 2 ^ 63 ≤ m) (hhigh : m < 2 ^ 64) (negative : Bool) : ∃ x k,
    number? (String.ofList (Number.digits m)) negative = some (.float x) ∧ x.toInt? = some (signed negative k) ∧
      k ≤ m + 1024 ∧ m ≤ k + 1024 := by
  have hd : ∀ c ∈ Number.digits m, isDigit c := fun c => isDigit_of_mem_digits
  have hfilter : (some m).filter (· < Nat.pow 2 63) = none := by
    rw [Option.filter_some, if_neg (by simpa using hlow)]
  obtain ⟨x, k, hx, hint, hk, hbelow, habove⟩ := Binary64.ofRatio_of_lt hlow hhigh negative
  have hdecimal : Binary64.ofDecimal? negative m 0 = some x := by
    have hlength : decimalLength m ≤ 20 := by
      unfold decimalLength
      split
      · exact Nat.zero_le _
      · exact (Nat.length_toDigits_le_iff (by decide) (by decide)).mpr (by omega)
    have horder : ¬ (m = 0 ∨ (decimalLength m : Int) + 0 < -330) := by omega
    have hsmall : ¬ 310 < (decimalLength m : Int) + 0 := by omega
    have hscaled : scaled m 1 10 0 = (m, 1) := by simp [scaled]
    rw [Binary64.ofDecimal?]
    dsimp only
    rw [if_neg horder, if_neg hsmall, hscaled]
    exact hx
  refine ⟨x, k, ?_, hint, hbelow, habove⟩
  have hfloat : ofBinary64 x = .float x := by
    have hbig : ¬ (signed negative k).natAbs < Nat.pow 2 53 := by
      have : (signed negative k).natAbs = k := by cases negative <;> simp [signed]
      rw [this, Nat.not_lt]
      exact le_trans (by decide) hk
    simp only [ofBinary64, hint, if_neg hbig]
  simp [number?, normal_digits hd, basedDigits_digits hd, ofDigits_number, hfilter, Decimal.ofChars_digits, hdecimal, hfloat]

end Literal

def isSign (c : Char) : Bool := c == '+' || c == '-'

theorem isSign_iff {c : Char} : isSign c ↔ c = '+' ∨ c = '-' := by simp [isSign]

/-- A text that does not begin with a sign. -/
def Unsigned (s : List Char) : Prop := ∀ c ∈ s.head?, ¬ isSign c

/-- A text in which signs stand behind a letter only that ends its digits, of an exponent or of a big integer. -/
def SignsLate (letters : List Char) (s : List Char) : Prop :=
  ∃ whole tail, s = whole ++ tail ∧ (∀ c ∈ whole, ¬ isSign c) ∧ ∀ c ∈ tail.head?, c ∈ letters

theorem unsigned_append {whole tail : List Char} (hwhole : ∀ c ∈ whole, ¬ isSign c)
    (htail : ∀ c ∈ tail.head?, c ∈ ['e', 'n']) : Unsigned (whole ++ tail) := by
  intro c hc
  cases whole with
  | nil =>
    have hletters : ∀ c ∈ ['e', 'n'], ¬ isSign c := by simp [isSign]
    exact hletters c (htail c hc)
  | cons d whole =>
    obtain rfl : d = c := by simpa using hc
    exact hwhole d List.mem_cons_self

theorem SignsLate.unsigned {s : List Char} (h : SignsLate ['e', 'n'] s) : Unsigned s := by
  obtain ⟨whole, tail, rfl, hwhole, htail⟩ := h
  exact unsigned_append hwhole htail

/-- Nor does a sign stand behind the letter of a base. -/
theorem SignsLate.unsigned_of_based {s digits : List Char} {base : Nat} (h : SignsLate ['e', 'n'] s)
    (hbased : basedDigits? s = some (base, digits)) : Unsigned digits := by
  obtain ⟨whole, tail, hs, hwhole, htail⟩ := h
  obtain ⟨letter, hletter, rfl⟩ : ∃ letter, letter ∈ ['x', 'o', 'b'] ∧ s = '0' :: letter :: digits := by
    unfold basedDigits? at hbased
    split at hbased <;> simp_all
  match whole with
  | [] =>
    rw [List.nil_append] at hs
    rw [← hs] at htail
    exact absurd (htail '0' rfl) (by decide)
  | [_] =>
    rw [List.singleton_append] at hs
    rw [← (List.cons.inj hs).2] at htail
    have : ∀ c ∈ ['x', 'o', 'b'], c ∉ ['e', 'n'] := by simp
    exact absurd (htail letter rfl) (this letter hletter)
  | _ :: _ :: rest =>
    rw [List.cons_append, List.cons_append] at hs
    rw [(List.cons.inj (List.cons.inj hs).2).2]
    exact unsigned_append (fun c hc => hwhole c (by simp [hc])) htail

/-- Only letters have a small form. -/
theorem toLower_eq_of_lt {c : Char} (h : c.toLower.toNat < 97) : c.toLower = c := by
  unfold Char.toLower at h ⊢
  split
  · next hcapital =>
    rw [dif_pos hcapital] at h
    obtain ⟨hlow, hhigh⟩ := hcapital
    rw [ge_iff_le, UInt32.le_iff_toNat_le] at hlow
    rw [UInt32.le_iff_toNat_le] at hhigh
    change (c.val + 32).toNat < 97 at h
    change 65 ≤ c.val.toNat at hlow
    change c.val.toNat ≤ 90 at hhigh
    rw [UInt32.toNat_add] at h
    change (c.val.toNat + 32) % 4294967296 < 97 at h
    omega
  · rfl

theorem isSign_of_toLower {c : Char} (h : isSign c.toLower) : isSign c := by
  have hlow : c.toLower.toNat < 97 := by
    rcases isSign_iff.mp h with h | h <;> rw [h] <;> decide
  rwa [toLower_eq_of_lt hlow] at h

theorem SignsLate.normal {s : List Char} (h : SignsLate ['e', 'E', 'n'] s) :
    SignsLate ['e', 'n'] ((s.filter (· != '_')).map Char.toLower) := by
  obtain ⟨whole, tail, rfl, hwhole, htail⟩ := h
  refine ⟨(whole.filter (· != '_')).map Char.toLower, (tail.filter (· != '_')).map Char.toLower, by simp, ?_, ?_⟩
  · intro c hc hsign
    obtain ⟨d, hd, rfl⟩ := List.mem_map.mp hc
    exact hwhole d (List.mem_filter.mp hd).1 (isSign_of_toLower hsign)
  · cases tail with
    | nil => simp
    | cons e tail =>
      obtain ⟨hbar, hlower⟩ : (e != '_') = true ∧ e.toLower ∈ ['e', 'n'] := by
        have he := htail e rfl
        simp only [List.mem_cons, List.not_mem_nil, or_false] at he
        rcases he with rfl | rfl | rfl <;> decide
      intro c hc
      rw [List.filter_cons, if_pos hbar, List.map_cons, List.head?_cons] at hc
      obtain rfl := Option.mem_some_iff.mp hc
      exact hlower

namespace Lexer

theorem not_sign_of_mem_takeWhile {p : Char → Bool} (hp : ¬ p '+' ∧ ¬ p '-') {s : List Char} {c : Char}
    (h : c ∈ s.take (s.takeWhile p).length) : ¬ isSign c := by
  rw [← List.prefix_iff_eq_take.mp (List.takeWhile_prefix _)] at h
  have hc := List.mem_takeWhile_imp h
  intro hsign
  rcases isSign_iff.mp hsign with rfl | rfl
  · exact hp.1 hc
  · exact hp.2 hc

theorem not_sign_of_mem_digits {s : List Char} {c : Char} (h : c ∈ s.take (digitsLength s)) : ¬ isSign c :=
  not_sign_of_mem_takeWhile (by decide) h

theorem not_sign_of_mem_fraction {s : List Char} {c : Char} (h : c ∈ s.take (fractionLength s)) : ¬ isSign c := by
  unfold fractionLength at h
  split at h
  · rw [List.take_succ_cons] at h
    rcases List.mem_cons.mp h with rfl | h
    · decide
    · exact not_sign_of_mem_digits h
  · simp at h

theorem head_of_exponentLength {s : List Char} (h : exponentLength s ≠ 0) : ∀ c ∈ s.head?, c ∈ ['e', 'E', 'n'] := by
  unfold exponentLength at h
  split at h <;> grind

theorem mem_head?_of_take {n : Nat} {s : List Char} {c : Char} (h : c ∈ (s.take n).head?) : c ∈ s.head? := by
  rw [List.head?_take] at h
  split at h
  · cases h
  · exact h

theorem signsLate_decimal (s : List Char) :
    SignsLate ['e', 'E', 'n'] (s.take (numberLength.withSuffix s)) := by
  obtain ⟨k, hk, hsuffix⟩ : ∃ k, numberLength.withSuffix s = decimalLength s + k ∧
      (k = 0 ∨ (s.drop (decimalLength s)).head? = some 'n') := by
    unfold numberLength.withSuffix
    dsimp only
    split
    · next h => exact ⟨1, rfl, .inr h⟩
    · exact ⟨0, rfl, .inl rfl⟩
  rw [hk, decimalLength] at *
  generalize hwhole : digitsLength s = whole at *
  generalize hfraction : fractionLength (s.drop whole) = fraction at *
  generalize hexponent : exponentLength (s.drop (whole + fraction)) = exponent at *
  refine ⟨s.take (whole + fraction), (s.drop (whole + fraction)).take (exponent + k), ?_, ?_, ?_⟩
  · rw [Nat.add_assoc, List.take_add]
  · intro c hc
    rw [List.take_add] at hc
    rcases List.mem_append.mp hc with hc | hc
    · rw [← hwhole] at hc
      exact not_sign_of_mem_digits hc
    · rw [← hfraction] at hc
      exact not_sign_of_mem_fraction hc
  · intro c hc
    by_cases hletter : exponent = 0
    · subst hletter
      rcases hsuffix with rfl | hn
      · simp at hc
      · have hhead := mem_head?_of_take hc
        rw [Nat.add_zero] at hn
        rw [hn] at hhead
        obtain rfl := Option.mem_some_iff.mp hhead
        decide
    · rw [← hexponent] at hletter
      exact head_of_exponentLength hletter c (mem_head?_of_take hc)

/-- Digits of any base are letters and digits. -/
theorem signsLate_based {base : Char} (hbase : "xXoObB".toList.contains base) (rest : List Char) :
    SignsLate ['e', 'E', 'n'] (('0' :: base :: rest).take (basedLength rest + 2)) := by
  rw [List.take_succ_cons, List.take_succ_cons]
  refine ⟨'0' :: base :: rest.take (basedLength rest), [], (List.append_nil _).symm, ?_, by simp⟩
  intro c hc
  rcases List.mem_cons.mp hc with rfl | hc
  · decide
  · rcases List.mem_cons.mp hc with rfl | hc
    · intro hsign
      rcases isSign_iff.mp hsign with rfl | rfl
      · exact absurd hbase (by decide)
      · exact absurd hbase (by decide)
    · exact not_sign_of_mem_takeWhile (by decide) hc

theorem signsLate_number {c : Char} (hc : ¬ isSign c) (rest : List Char) :
    SignsLate ['e', 'E', 'n'] ((c :: rest).take (max 1 (numberLength (c :: rest)))) := by
  by_cases hlength : numberLength (c :: rest) = 0
  · refine ⟨[c], [], by simp [hlength], ?_, by simp⟩
    intro d hd
    obtain rfl := List.mem_singleton.mp hd
    exact hc
  · rw [Nat.max_eq_right (Nat.one_le_iff_ne_zero.mpr hlength)]
    unfold numberLength
    split
    · next heq =>
      obtain ⟨rfl, rfl⟩ := List.cons.inj heq
      split
      · next hbase => exact signsLate_based hbase _
      · exact signsLate_decimal _
    · exact signsLate_decimal _

/-- A token that is no end mark is the piece at some place of the text. -/
theorem piece_of_mem_tokensFrom {fuel : Nat} {scan : Scan} {s : List Char} {t : Token}
    (h : t ∈ tokensFrom fuel scan s) (hk : t.kind ≠ .finish) : ∃ afterOperand s' n,
      piece afterOperand s' = (.token t.kind, n) ∧ t.text = String.ofList (s'.take (max 1 n)) := by
  induction fuel generalizing scan s with
  | zero => cases h
  | succ fuel ih =>
    cases s with
    | nil =>
      obtain rfl := List.mem_singleton.mp h
      exact absurd rfl hk
    | cons c s =>
      rw [tokensFrom.eq_3 _ _ _ (by simp)] at h
      rcases hp : piece scan.afterOperand (c :: s) with ⟨kind, n⟩
      rw [hp] at h
      cases kind with
      | gap => exact ih h
      | comment => exact ih h
      | token kind =>
        rcases List.mem_cons.mp h with rfl | h
        · exact ⟨scan.afterOperand, c :: s, n, hp, rfl⟩
        · exact ih h

theorem piece_number {afterOperand : Bool} {s : List Char} {n : Nat}
    (h : piece afterOperand s = (.token .number, n)) :
    ∃ c rest, s = c :: rest ∧ ¬ isSign c ∧ n = numberLength s := by
  cases s with
  | nil => cases h
  | cons c rest =>
    have hpiece : (isDigit c ∨ c = '.') ∧ n = numberLength (c :: rest) := by
      rw [piece.eq_def] at h
      split at h <;> grind
    obtain ⟨hc, hn⟩ := hpiece
    refine ⟨c, rest, rfl, ?_, hn⟩
    intro hsign
    rcases isSign_iff.mp hsign with rfl | rfl
    · exact absurd hc (by decide)
    · exact absurd hc (by decide)

end Lexer

namespace Literal

/-- An integer of sixty-three bits and a sign, which may stand in front of the digits. -/
def int64? (base : Nat) (s : List Char) : Option Int :=
  match s with
  | '-' :: digits => ((ofDigits? base digits).map fun n : Nat => -(n : Int)).filter (-(2 ^ 63) ≤ ·)
  | digits => ((ofDigits? base (withoutPlus digits)).map fun n : Nat => (n : Int)).filter (· < 2 ^ 63)

/-- The integer that the text of a literal gives by itself, to be negated behind a minus. -/
def integer? (text : String) : Option Int :=
  let s := (text.toList.filter (· != '_')).map Char.toLower
  match basedDigits? s with
  | some (base, digits) => int64? base digits
  | none => int64? 10 s

theorem int64_of_unsigned {base : Nat} {s : List Char} (h : Unsigned s) :
    int64? base s = ((ofDigits? base s).filter (· < Nat.pow 2 63)).map fun n : Nat => (n : Int) := by
  have hplus : withoutPlus s = s := by
    unfold withoutPlus
    split
    · exact absurd rfl (h '+' rfl)
    · rfl
  unfold int64?
  split
  · exact absurd rfl (h '-' rfl)
  · rw [hplus]
    cases ofDigits? base s with
    | none => rfl
    | some n =>
      by_cases hn : n < Nat.pow 2 63
      · have hint : (n : Int) < 2 ^ 63 := Int.ofNat_lt.mpr hn
        rw [Option.map_some, Option.filter_some, Option.filter_some, if_pos (decide_eq_true hint),
          if_pos (decide_eq_true hn), Option.map_some]
      · have hint : ¬ (n : Int) < 2 ^ 63 := fun h => hn (Int.ofNat_lt.mp h)
        rw [Option.map_some, Option.filter_some, Option.filter_some, if_neg (by simpa using hint),
          if_neg (by simpa using hn), Option.map_none]

theorem integer_eq_some {text : String} (h : SignsLate ['e', 'E', 'n'] text.toList) {v : Int}
    (hv : integer? text = some v) : ∃ n < Nat.pow 2 63, v = n ∧ ∀ negative,
      number? text negative = some (.integer (signed negative n)) := by
  have hnormal := h.normal
  unfold integer? at hv
  unfold number?
  generalize (text.toList.filter (· != '_')).map Char.toLower = s at hv hnormal ⊢
  dsimp only at hv ⊢
  rcases hbased : basedDigits? s with _ | ⟨base, digits⟩
  · simp only [hbased, int64_of_unsigned hnormal.unsigned] at hv ⊢
    obtain ⟨n, hn, rfl⟩ := Option.map_eq_some_iff.mp hv
    have hlt := (Option.filter_eq_some_iff.mp hn).2
    refine ⟨n, of_decide_eq_true hlt, rfl, ?_⟩
    intro negative
    rw [hn]
  · simp only [hbased, int64_of_unsigned (hnormal.unsigned_of_based hbased)] at hv ⊢
    obtain ⟨n, hn, rfl⟩ := Option.map_eq_some_iff.mp hv
    obtain ⟨hdigits, hlt⟩ := Option.filter_eq_some_iff.mp hn
    refine ⟨n, of_decide_eq_true hlt, rfl, ?_⟩
    intro negative
    rw [hdigits, Option.bind_some, if_pos (of_decide_eq_true hlt)]

end Literal

theorem Lexer.signsLate_of_number {file : String} {t : Token} (h : t ∈ tokens file) (hk : t.kind = .number) :
    SignsLate ['e', 'E', 'n'] t.text.toList := by
  obtain ⟨afterOperand, s, n, hpiece, htext⟩ := piece_of_mem_tokensFrom h (by rw [hk]; decide)
  rw [hk] at hpiece
  obtain ⟨c, rest, rfl, hc, rfl⟩ := piece_number hpiece
  rw [htext, String.toList_ofList]
  exact signsLate_number hc rest

theorem Number.head_integerText (n : Int) : (integerText n).head? ≠ some '#' := by
  unfold integerText
  split
  · simp
  · intro h
    have hdigit : isDigit '#' := isDigit_of_mem_digits (List.mem_of_mem_head? h)
    exact absurd hdigit (by decide)

namespace TypeReader

variable (source : List Char) (nested : Nested) (mayEnd : Bool)

/-- A printed integer is one type, with the number that its sign and its digits stand for. -/
theorem primary_printed {n : Int} {value : Number}
    (hvalue : Literal.number? (String.ofList (Number.digits n.natAbs)) (decide (n < 0)) = some value) (stop : Nat) :
    ∃ e c, primary source nested mayEnd ⟨Lexer.tokens (Printer.literal (.number (.integer n))), stop⟩ = some (e, c) ∧
      e.kind = .literal (.number value) := by
  have hspells := spells_integer Lead.proper_empty n
  rw [Lead.chars_empty, List.nil_append] at hspells
  have htext : (Printer.literal (.number (.integer n))).toList =
      spelled (literalLexemes {} (.number (.integer n)) ++ [⟨{}, .finish⟩]) := by
    rw [spelled_append, hspells.spelled]
    simp [Lexeme.chars, Lead.chars_empty, Atom.text]
  have hstart : (Printer.literal (.number (.integer n))).toList.head? ≠ some '#' := by
    rw [Printer.literal, Number.text, String.toList_ofList]
    exact Number.head_integerText n
  have hshows : List.Forall₂ Token.Shows (Lexer.tokens (Printer.literal (.number (.integer n))))
      (literalLexemes {} (.number (.integer n)) ++ [⟨{}, .finish⟩]) :=
    Lexer.tokens_spelled (hspells.apart [] (by simp [Breaks])) Lead.proper_empty htext hstart
  have hreads : Reads (primary source nested mayEnd) (literalLexemes {} (.number (.integer n))) [⟨{}, .finish⟩] _ :=
    primary_digits hvalue
  obtain ⟨e, stop', hread, -, hkind⟩ := hreads _ _ stop (List.forall₂_take_append _ _ _ hshows)
    (List.forall₂_drop_append _ _ _ hshows)
  rw [List.take_append_drop] at hread
  exact ⟨e, _, hread, hkind⟩

/-- A printed integer is read as itself if it has no more than sixty-three bits beside its sign. Another becomes a
binary64 number, which is an integer too but may be another one. Whatever literal a file holds, the integer that its
digits give can be negated, and a minus in front of it does just that. -/
theorem printed_integer_read_back (n : Int) (hlow : -(2 ^ 63) ≤ n) (hhigh : n < 2 ^ 64) (stop : Nat) (file : String) :
    (∃ value e c,
      primary source nested mayEnd ⟨Lexer.tokens (Printer.literal (.number (.integer n))), stop⟩ = some (e, c) ∧
      e.kind = .literal (.number value) ∧
      (n.natAbs < 2 ^ 63 → value = .integer n) ∧
      (2 ^ 63 ≤ n.natAbs → ∃ x k, value = .float x ∧ x.toInt? = some k ∧ (k - n).natAbs ≤ 1024)) ∧
    ∀ t ∈ Lexer.tokens file, t.kind = .number → ∀ v, Literal.integer? t.text = some v →
      (-(2 ^ 63) ≤ -v ∧ -v < 2 ^ 63) ∧
      ∀ negative, Literal.number? t.text negative = some (.integer (if negative then -v else v)) := by
  constructor
  · by_cases hbits : n.natAbs < 2 ^ 63
    · have hvalue : Literal.number? (String.ofList (Number.digits n.natAbs)) (decide (n < 0)) = some (.integer n) := by
        rw [Literal.number_digits hbits, Literal.signed_natAbs]
      obtain ⟨e, c, hread, hkind⟩ := primary_printed source nested mayEnd hvalue stop
      exact ⟨_, e, c, hread, hkind, fun _ => rfl, fun h => absurd hbits (Nat.not_lt.mpr h)⟩
    · obtain ⟨x, k, hvalue, hint, hbelow, habove⟩ :=
        Literal.number_digits_of_le (Nat.not_lt.mp hbits) (by omega) (decide (n < 0))
      obtain ⟨e, c, hread, hkind⟩ := primary_printed source nested mayEnd hvalue stop
      refine ⟨_, e, c, hread, hkind, fun h => absurd h hbits, fun _ => ⟨x, _, rfl, hint, ?_⟩⟩
      have hn := Literal.signed_natAbs n
      generalize decide (n < 0) = negative at hn ⊢
      cases negative <;> simp only [Literal.signed, Bool.false_eq_true, if_true, if_false] at hn ⊢ <;> omega
  · intro t ht hk v hv
    obtain ⟨m, hm, rfl, hnumber⟩ := Literal.integer_eq_some (Lexer.signsLate_of_number ht hk) hv
    have hsmall : (m : Int) < 2 ^ 63 := Int.ofNat_lt.mpr hm
    exact ⟨⟨by omega, by omega⟩, hnumber⟩

/-- The greatest integer of sixty-four bits. -/
theorem printed_integer_read_back_greatest : (-(2 ^ 63) : Int) ≤ 2 ^ 64 - 1 ∧ (2 ^ 64 - 1 : Int) < 2 ^ 64 ∧
    ∃ value e c,
      primary [] (within [] 0) false ⟨Lexer.tokens (Printer.literal (.number (.integer (2 ^ 64 - 1)))), 0⟩ = some (e, c) ∧
      e.kind = .literal (.number value) ∧ value ≠ .integer (2 ^ 64 - 1) := by
  have hlow : (-(2 ^ 63) : Int) ≤ 2 ^ 64 - 1 := by decide
  have hhigh : (2 ^ 64 - 1 : Int) < 2 ^ 64 := by decide
  obtain ⟨⟨value, e, c, hread, hkind, -, hfloat⟩, -⟩ :=
    printed_integer_read_back [] (within [] 0) false (2 ^ 64 - 1) hlow hhigh 0 ""
  obtain ⟨x, k, rfl, -⟩ := hfloat (by decide)
  exact ⟨hlow, hhigh, _, e, c, hread, hkind, nofun⟩

end TypeReader

end TypeSchema
