import Mathlib.Tactic.SplitIfs
import TypeSchema.Proofs.Lexemes
import TypeSchema.Syntax.Literal

namespace TypeSchema.Literal

/-- A control character is written as the digits of its code. -/
theorem charOfHex_control {n : Nat} (hn : n < 32) :
    charOfHex ['0', '0', Quoted.hexDigit (n / 16), Quoted.hexDigit (n % 16)] = [Char.ofNat n] := by
  revert n
  decide

theorem unescape_cons {c : Char} (hc : c ≠ '\\') (s : List Char) :
    unescape .plain (c :: s) = c :: unescape .plain s := by
  rw [unescape, if_neg hc]

theorem unescape_simple {c d : Char} (hx : c ≠ 'x') (hu : c ≠ 'u') (hd : simpleEscape c = [d]) (s : List Char) :
    unescape .plain ('\\' :: c :: s) = d :: unescape .plain s := by
  rw [unescape, if_pos rfl, unescape, if_neg hx, if_neg hu, hd]
  rfl

/-- The escape of a character is resolved to the character. -/
theorem unescape_escape (c : Char) (s : List Char) :
    unescape .plain (Quoted.escape c ++ s) = c :: unescape .plain s := by
  unfold Quoted.escape
  split_ifs with hquote hslash hline hreturn htab hback hfeed hlow
  · subst hquote
    exact unescape_simple (by decide) (by decide) (by decide) s
  · subst hslash
    exact unescape_simple (by decide) (by decide) (by decide) s
  · subst hline
    exact unescape_simple (by decide) (by decide) (by decide) s
  · subst hreturn
    exact unescape_simple (by decide) (by decide) (by decide) s
  · subst htab
    exact unescape_simple (by decide) (by decide) (by decide) s
  · rw [← Char.ofNat_toNat c, hback]
    exact unescape_simple (by decide) (by decide) (by decide) s
  · rw [← Char.ofNat_toNat c, hfeed]
    exact unescape_simple (by decide) (by decide) (by decide) s
  · have hc := charOfHex_control hlow
    rw [Char.ofNat_toNat] at hc
    simp [unescape, hc]
  · exact unescape_cons hslash s

theorem unescape_body (v : List Char) : unescape .plain (Quoted.body v) = v := by
  induction v with
  | nil => rfl
  | cons c v ih => rw [Quoted.body_cons, unescape_escape, ih]

theorem insideQuotes_quoted {quote : Char} (h : quote = '"' ∨ quote = '\'') (s : List Char) :
    insideQuotes (quote :: s ++ [quote]) = s := by
  simp [insideQuotes, h]

theorem unquote_quote (value : String) : unquote (Quoted.quote value) = value := by
  rw [unquote, Quoted.quote, String.toList_ofList, insideQuotes_quoted (Or.inl rfl), unescape_body, String.ofList_toList]

theorem hexValue_digit {c : Char} (h : isDigit c) : Quoted.hexValue? c = some (c.toNat - 48) ∧ c.toNat - 48 < 10 := by
  simp only [isDigit, Bool.and_eq_true, decide_eq_true_eq] at h
  refine ⟨if_pos h, ?_⟩
  have hle : c.toNat ≤ 57 := h.2
  omega

theorem ofDigits_digits {digits : List Char} (hne : digits ≠ []) (h : ∀ c ∈ digits, isDigit c) :
    ofDigits? 10 digits = some (Nat.ofDigitChars 10 digits 0) := by
  rw [ofDigits?, if_neg (by simpa using hne), Nat.ofDigitChars_eq_foldl]
  generalize 0 = value
  clear hne
  induction digits generalizing value with
  | nil => rfl
  | cons c rest ih =>
    obtain ⟨hv, hlt⟩ := hexValue_digit (h c List.mem_cons_self)
    rw [List.foldlM_cons, hv, Option.bind_some, if_pos hlt]
    exact ih (fun d hd => h d (List.mem_cons_of_mem _ hd)) _

theorem normal_digits {digits : List Char} (h : ∀ c ∈ digits, isDigit c) :
    (digits.filter (· != '_')).map Char.toLower = digits := by
  have hbar : ∀ c ∈ digits, c != '_' := fun c hc => forall_digits (p := (· != '_')) (by decide) (h c hc)
  have hlower : ∀ c ∈ digits, c.toLower = c := fun c hc => forall_digits (p := fun c => c.toLower = c) (by decide) (h c hc)
  rw [List.filter_eq_self.mpr hbar, List.map_congr_left hlower, List.map_id']

theorem basedDigits_digits {digits : List Char} (h : ∀ c ∈ digits, isDigit c) : basedDigits? digits = none := by
  unfold basedDigits?
  split
  · exact absurd (h 'x' (by simp)) (by decide)
  · exact absurd (h 'o' (by simp)) (by decide)
  · exact absurd (h 'b' (by simp)) (by decide)
  · rfl

theorem signed_natAbs (n : Int) : signed (decide (n < 0)) n.natAbs = n := by
  by_cases h : n < 0
  · simp only [signed, h, decide_true, if_true]
    omega
  · simp only [signed, h, decide_false, Bool.false_eq_true, if_false]
    omega

theorem ofDigits_number (n : Nat) : ofDigits? 10 (Number.digits n) = some n := by
  rw [@ofDigits_digits (Number.digits n) Nat.toDigits_ne_nil fun c => isDigit_of_mem_digits, Number.digits,
    Nat.ofDigitChars_ten_toDigits]

/-- An integer of sixty-three bits is read as it is written. -/
theorem number_digits {n : Nat} (hn : n < Nat.pow 2 63) (negative : Bool) :
    number? (String.ofList (Number.digits n)) negative = some (.integer (signed negative n)) := by
  have hd : ∀ c ∈ Number.digits n, isDigit c := fun c => isDigit_of_mem_digits
  have hfilter : (some n).filter (· < Nat.pow 2 63) = some n := by
    rw [Option.filter_some, if_pos (by simpa using hn)]
  simp only [number?, String.toList_ofList, normal_digits hd, basedDigits_digits hd, ofDigits_number, hfilter]

end TypeSchema.Literal
