import Mathlib.Data.List.Forall2
import TypeSchema.Proofs.Lexemes
import TypeSchema.Syntax.Cursor

namespace TypeSchema

/-- On tokens that show `ls` before tokens that show `more`, a reader takes the first ones and yields a value with
the property. -/
def Reads {α : Type} (read : Reader α) (ls more : List Lexeme) (P : α → Prop) : Prop :=
  ∀ ts rest stop, List.Forall₂ Token.Shows ts ls → List.Forall₂ Token.Shows rest more →
    ∃ a stop', read ⟨ts ++ rest, stop⟩ = some (a, ⟨rest, stop'⟩) ∧ P a

namespace Reads

open Reader

variable {α β : Type} {P : α → Prop} {Q : β → Prop} {ls ms more : List Lexeme} {l : Lexeme}

theorem pure {a : α} (h : P a) : Reads (pure a) [] more P := by
  rintro ts rest stop ⟨⟩ -
  exact ⟨a, stop, rfl, h⟩

theorem bind {read : Reader α} {next : α → Reader β} (h : Reads read ls (ms ++ more) P)
    (hn : ∀ a, P a → Reads (next a) ms more Q) : Reads (read >>= next) (ls ++ ms) more Q := by
  intro ts rest stop hts hrest
  have hfirst := List.forall₂_take_append _ _ _ hts
  have hsecond := List.forall₂_drop_append _ _ _ hts
  obtain ⟨a, stop₁, ha, hpa⟩ := h _ _ stop hfirst (List.rel_append hsecond hrest)
  obtain ⟨b, stop₂, hb, hqb⟩ := hn a hpa _ _ stop₁ hsecond hrest
  refine ⟨b, stop₂, ?_, hqb⟩
  rw [← List.append_assoc, List.take_append_drop] at ha
  change (read ⟨ts ++ rest, stop⟩).bind (fun p => next p.1 p.2) = _
  rw [ha]
  exact hb

/-- A reader that takes nothing, before one that takes everything. -/
theorem bind_none {read : Reader α} {next : α → Reader β} (h : Reads read [] (ms ++ more) P)
    (hn : ∀ a, P a → Reads (next a) ms more Q) : Reads (read >>= next) ms more Q :=
  bind h hn

/-- A reader that takes one lexeme, before others. -/
theorem bind_one {read : Reader α} {next : α → Reader β} (h : Reads read [l] (ms ++ more) P)
    (hn : ∀ a, P a → Reads (next a) ms more Q) : Reads (read >>= next) (l :: ms) more Q :=
  bind h hn

/-- A reader that takes everything, before one that takes nothing. -/
theorem bind_last {read : Reader α} {next : α → Reader β} (h : Reads read ls more P)
    (hn : ∀ a, P a → Reads (next a) [] more Q) : Reads (read >>= next) ls more Q := by
  have : Reads (read >>= next) (ls ++ []) more Q := bind h hn
  rwa [List.append_nil] at this

theorem mono {read : Reader α} {P' : α → Prop} (h : Reads read ls more P) (hp : ∀ a, P a → P' a) :
    Reads read ls more P' := by
  intro ts rest stop hts hrest
  obtain ⟨a, stop', ha, hpa⟩ := h ts rest stop hts hrest
  exact ⟨a, stop', ha, hp a hpa⟩

theorem map {read : Reader α} {f : α → β} (h : Reads read ls more fun a => Q (f a)) : Reads (f <$> read) ls more Q := by
  intro ts rest stop hts hrest
  obtain ⟨a, stop', ha, hpa⟩ := h ts rest stop hts hrest
  refine ⟨f a, stop', ?_, hpa⟩
  change (read ⟨ts ++ rest, stop⟩).bind (fun p => some (f p.1, p.2)) = _
  rw [ha]
  rfl

/-- Looking at a token takes none. -/
theorem peekAfter {k : Token → Reader β} {n : Nat} (hl : (ls ++ more)[n]? = some l)
    (h : ∀ t : Token, t.Shows l → Reads (k t) ls more Q) : Reads (peekAfter n >>= k) ls more Q := by
  intro ts rest stop hts hrest
  have hall := List.rel_append hts hrest
  have hn : n < (ls ++ more).length := by
    by_contra hlt
    simp [List.getElem?_eq_none (Nat.not_lt.mp hlt)] at hl
  have hn' : n < (ts ++ rest).length := by rwa [hall.length_eq]
  have hshows := hall.get hn' hn
  have hl' : (ls ++ more)[n] = l := by
    rw [List.getElem?_eq_getElem hn] at hl
    exact Option.some.inj hl
  simp only [List.get_eq_getElem, hl'] at hshows
  obtain ⟨a, stop', ha, hq⟩ := h _ hshows ts rest stop hts hrest
  refine ⟨a, stop', ?_, hq⟩
  change k (((ts ++ rest).drop n).headD .none) ⟨ts ++ rest, stop⟩ = _
  rw [List.headD_eq_head?_getD, List.head?_drop, List.getElem?_eq_getElem hn']
  exact ha

theorem peekAfter_any {k : Token → Reader β} {n : Nat} (h : ∀ t : Token, Reads (k t) ls more Q) :
    Reads (Reader.peekAfter n >>= k) ls more Q := by
  intro ts rest stop hts hrest
  exact h _ ts rest stop hts hrest

theorem peek {k : Token → Reader β} (hl : (ls ++ more).head? = some l)
    (h : ∀ t : Token, t.Shows l → Reads (k t) ls more Q) : Reads (peek >>= k) ls more Q := by
  intro ts rest stop hts hrest
  obtain ⟨a, stop', ha, hq⟩ := peekAfter (n := 0) (by rw [← List.head?_eq_getElem?, hl]) h ts rest stop hts hrest
  exact ⟨a, stop', ha, hq⟩

/-- A look at what is not read. -/
theorem peek_more {k : Token → Reader β} (hl : more.head? = some l)
    (h : ∀ t : Token, t.Shows l → Reads (k t) [] more Q) : Reads (Reader.peek >>= k) [] more Q :=
  peek hl h

theorem get {k : Cursor → Reader β}
    (h : ∀ c : Cursor, List.Forall₂ Token.Shows c.tokens (ls ++ more) → Reads (k c) ls more Q) :
    Reads (get >>= k) ls more Q := by
  intro ts rest stop hts hrest
  exact h ⟨ts ++ rest, stop⟩ (List.rel_append hts hrest) ts rest stop hts hrest

theorem next {k : Token → Reader β} (h : ∀ t : Token, t.Shows l → Reads (k t) ls more Q) :
    Reads (next >>= k) (l :: ls) more Q := by
  rintro ts rest stop (_ | ⟨ht, hts⟩) hrest
  exact h _ ht _ _ _ hts hrest

theorem word {k : Token → Reader β} {lead : Lead} {name : String}
    (h : ∀ t : Token, t.Shows ⟨lead, .word name⟩ → Reads (k t) ls more Q) :
    Reads (word >>= k) (⟨lead, .word name⟩ :: ls) more Q := by
  rw [Reader.word, bind_assoc]
  refine next fun t ht => ?_
  rw [if_pos (by simpa [Atom.kind] using ht.kind), pure_bind]
  exact h t ht

theorem accept {k : Bool → Reader β} {mark : String} (hl : l.atom.isMark mark) (h : Reads (k true) ls more Q) :
    Reads (accept mark >>= k) (l :: ls) more Q := by
  rw [Reader.accept, bind_assoc]
  refine peek rfl fun t ht => ?_
  rw [if_pos (by rw [ht.isMark, hl]), bind_assoc]
  exact next fun _ _ => by rwa [pure_bind]

theorem accept_not {k : Bool → Reader β} {mark : String} (hl : (ls ++ more).head? = some l)
    (hm : l.atom.isMark mark = false) (h : Reads (k false) ls more Q) : Reads (Reader.accept mark >>= k) ls more Q := by
  rw [Reader.accept, bind_assoc]
  refine peek hl fun t ht => ?_
  rw [if_neg (by rw [ht.isMark, hm]; simp), pure_bind]
  exact h

theorem accepted {mark : String} (hl : l.atom.isMark mark) : Reads (Reader.accept mark) [l] more (· = true) := by
  have : Reads (Reader.accept mark >>= Pure.pure) [l] more (· = true) := accept hl (pure rfl)
  rwa [bind_pure] at this

theorem not_accepted {mark : String} (hl : more.head? = some l) (hm : l.atom.isMark mark = false) :
    Reads (Reader.accept mark) [] more (· = false) := by
  have : Reads (Reader.accept mark >>= Pure.pure) [] more (· = false) := accept_not hl hm (pure rfl)
  rwa [bind_pure] at this

theorem acceptWord {k : Bool → Reader β} {word : String} (hl : l.atom.isWord word) (h : Reads (k true) ls more Q) :
    Reads (acceptWord word >>= k) (l :: ls) more Q := by
  rw [Reader.acceptWord, bind_assoc]
  refine peek rfl fun t ht => ?_
  rw [if_pos (by rw [ht.isWord, hl]), bind_assoc]
  exact next fun _ _ => by rwa [pure_bind]

theorem acceptWord_not {k : Bool → Reader β} {word : String} (hl : (ls ++ more).head? = some l)
    (hw : l.atom.isWord word = false) (h : Reads (k false) ls more Q) :
    Reads (Reader.acceptWord word >>= k) ls more Q := by
  rw [Reader.acceptWord, bind_assoc]
  refine peek hl fun t ht => ?_
  rw [if_neg (by rw [ht.isWord, hw]; simp), pure_bind]
  exact h

theorem expect {k : Unit → Reader β} {mark : String} (hl : l.atom.isMark mark) (h : Reads (k ()) ls more Q) :
    Reads (expect mark >>= k) (l :: ls) more Q := by
  rw [Reader.expect, bind_assoc]
  exact accept hl (by rw [if_pos rfl, pure_bind]; exact h)

theorem spanFrom {k : Span → Reader β} {t : Token} (h : ∀ span, Reads (k span) ls more Q) :
    Reads (spanFrom t >>= k) ls more Q := by
  intro ts rest stop hts hrest
  exact h _ ts rest stop hts hrest

variable {check : Reader Bool} {item : Reader α} {n : Nat}

theorem repeatUpTo_stop (h : Reads check [] more (· = false)) {R : List α → Prop} (hr : R []) :
    Reads (repeatUpTo n check item) [] more R := by
  cases n with
  | zero => exact pure hr
  | succ n =>
    rw [repeatUpTo]
    refine bind_last h fun b hb => ?_
    subst hb
    exact pure hr

/-- One item more, behind what says so. -/
theorem repeatUpTo_step {checked : List Lexeme} (h : Reads check checked (ls ++ ms ++ more) (· = true))
    (hi : Reads item ls (ms ++ more) P) {R R' : List α → Prop} (hr : Reads (repeatUpTo n check item) ms more R)
    (hcons : ∀ a as, P a → R as → R' (a :: as)) :
    Reads (repeatUpTo (n + 1) check item) (checked ++ (ls ++ ms)) more R' := by
  rw [repeatUpTo]
  refine bind h fun b hb => ?_
  subst hb
  refine bind hi fun a ha => ?_
  exact bind_last hr fun as has => pure (hcons a as ha has)

/-- One item more, where a look ahead says so. -/
theorem repeatUpTo_next (h : Reads check [] (ls ++ ms ++ more) (· = true)) (hi : Reads item ls (ms ++ more) P)
    {R R' : List α → Prop} (hr : Reads (repeatUpTo n check item) ms more R)
    (hcons : ∀ a as, P a → R as → R' (a :: as)) :
    Reads (repeatUpTo (n + 1) check item) (ls ++ ms) more R' :=
  repeatUpTo_step h hi hr hcons

theorem repeatWhile {R : List α → Prop} (h : Reads (repeatUpTo (ls ++ more).length check item) ls more R) :
    Reads (repeatWhile check item) ls more R := by
  rw [Reader.repeatWhile]
  refine get fun c hc => ?_
  rw [hc.length_eq]
  exact h

end Reads

end TypeSchema
