import Mathlib.Data.List.DropRight
import Mathlib.Data.Prod.Lex
import Mathlib.Order.Monotone.Basic
import TypeSchema.Text.Position

namespace TypeSchema

theorem byteSize_append (s t : List Char) : byteSize (s ++ t) = byteSize s + byteSize t := by
  induction s with
  | nil => simp [byteSize]
  | cons c s ih => rw [List.cons_append, byteSize, byteSize, ih, Nat.add_assoc]

/-- The first bytes of a text are characters just if they end where a character does. -/
theorem takeBytes?_eq_some_iff {n : Nat} {s before : List Char} :
    takeBytes? n s = some before ↔ before <+: s ∧ byteSize before = n := by
  fun_induction takeBytes? n s generalizing before with
  | case1 s =>
    cases before with
    | nil => simp [byteSize]
    | cons c before =>
      have hpos := c.utf8Size_pos
      simp only [byteSize, Option.some.injEq, List.nil_eq, reduceCtorEq, false_iff]
      omega
  | case2 n =>
    suffices before <+: [] → byteSize before ≠ n + 1 by simpa
    intro hstart
    simp [List.prefix_nil.mp hstart, byteSize]
  | case3 n c s hc ih =>
    cases before with
    | nil => simp [byteSize]
    | cons d before =>
      simp only [Option.map_eq_some_iff, ih, List.cons.injEq, List.cons_prefix_cons, byteSize]
      constructor
      · rintro ⟨_, ⟨hstart, hsize⟩, rfl, rfl⟩
        exact ⟨⟨rfl, hstart⟩, by omega⟩
      · rintro ⟨⟨rfl, hstart⟩, hsize⟩
        exact ⟨before, ⟨hstart, by omega⟩, rfl, rfl⟩
  | case4 n c s hc =>
    cases before with
    | nil => simp [byteSize]
    | cons d before =>
      simp only [reduceCtorEq, List.cons_prefix_cons, byteSize, false_iff]
      rintro ⟨⟨rfl, -⟩, hsize⟩
      omega

/-- An offset before, between or behind the characters of a text. -/
def IsBoundary (source : List Char) (offset : Nat) : Prop :=
  ∃ before, before <+: source ∧ byteSize before = offset

theorem isBoundary_iff {source : List Char} {offset : Nat} :
    IsBoundary source offset ↔ (takeBytes? offset source).isSome := by
  simp [IsBoundary, Option.isSome_iff_exists, takeBytes?_eq_some_iff]

instance (source : List Char) (offset : Nat) : Decidable (IsBoundary source offset) :=
  decidable_of_iff _ isBoundary_iff.symm

namespace Position

/-- Line and column, the line first. -/
def lineColumn (p : Position) : Nat ×ₗ Nat := toLex (p.line, p.column)

theorem at_byteSize {source before : List Char} (h : before <+: source) :
    Position.at source (byteSize before) = .after (byteSize before) before := by
  obtain ⟨rest, rfl⟩ := h
  have hle : byteSize before ≤ byteSize (before ++ rest) := by
    rw [byteSize_append]
    omega
  have htake : takeBytes? (byteSize before) (before ++ rest) = some before :=
    takeBytes?_eq_some_iff.mpr ⟨List.prefix_append .., rfl⟩
  rw [Position.at, Nat.min_eq_left hle, htake, Option.getD_some]

theorem at_of_le {source : List Char} {offset : Nat} (h : byteSize source ≤ offset) :
    Position.at source offset = Position.at source (byteSize source) := by
  rw [Position.at, Position.at, Nat.min_eq_right h, Nat.min_self]

theorem after_eq (offset : Nat) (before : List Char) : after offset before =
    ⟨offset, before.count '\n' + 1, (before.rtakeWhile (· != '\n')).length + 1⟩ := by
  rw [after, List.rtakeWhile, List.length_reverse]

/-- A line feed leads to the next line, any other character to the next column. -/
theorem lineColumn_after_concat (offset next : Nat) (before : List Char) (c : Char) :
    (after next (before ++ [c])).lineColumn =
      if c = '\n' then toLex ((after offset before).line + 1, 1)
      else toLex ((after offset before).line, (after offset before).column + 1) := by
  rw [lineColumn, after_eq, after_eq, List.count_append, List.rtakeWhile_concat]
  by_cases hc : c = '\n' <;> simp [hc]

theorem lineColumn_lt_concat (offset next : Nat) (before : List Char) (c : Char) :
    (after offset before).lineColumn < (after next (before ++ [c])).lineColumn := by
  rw [lineColumn_after_concat offset next, lineColumn]
  split <;> rw [Prod.Lex.toLex_lt_toLex]
  · exact .inl (Nat.lt_succ_self _)
  · exact .inr ⟨rfl, Nat.lt_succ_self _⟩

theorem lineColumn_lt_append (offset next : Nat) (before : List Char) (c : Char) (more : List Char) :
    (after offset before).lineColumn < (after next (before ++ c :: more)).lineColumn := by
  induction more generalizing before c with
  | nil => exact lineColumn_lt_concat offset next before c
  | cons d more ih =>
    calc (after offset before).lineColumn
      _ < (after offset (before ++ [c])).lineColumn := lineColumn_lt_concat offset offset before c
      _ < (after next (before ++ [c] ++ d :: more)).lineColumn := ih (before ++ [c]) d
      _ = (after next (before ++ c :: d :: more)).lineColumn := by rw [List.append_assoc, List.singleton_append]

/-- Of two starts of a text the one with more bytes goes on where the other ends. -/
theorem exists_append_cons_of_byteSize_lt {source s t : List Char} (hs : s <+: source) (ht : t <+: source)
    (hlt : byteSize s < byteSize t) : ∃ c more, t = s ++ c :: more := by
  rcases List.prefix_or_prefix_of_prefix hs ht with ⟨more, rfl⟩ | ⟨more, rfl⟩
  · cases more with
    | nil => simp at hlt
    | cons c more => exact ⟨c, more, rfl⟩
  · rw [byteSize_append] at hlt
    omega

/-- Positions stand in the order of their offsets. -/
theorem strictMonoOn_lineColumn (source : List Char) :
    StrictMonoOn (fun offset => (Position.at source offset).lineColumn) {offset | IsBoundary source offset} := by
  rintro _ ⟨s, hs, rfl⟩ _ ⟨t, ht, rfl⟩ hlt
  obtain ⟨c, more, rfl⟩ := exists_append_cons_of_byteSize_lt hs ht hlt
  change (Position.at source _).lineColumn < (Position.at source _).lineColumn
  rw [at_byteSize hs, at_byteSize ht]
  exact lineColumn_lt_append _ _ s c more

end Position

/-- Where an offset stands: behind whole lines, and behind some characters of the line after them. -/
structure StandsBehind (source : List Char) (offset : Nat) (above line : List Char) : Prop where
  starts : above ++ line <+: source
  size : byteSize (above ++ line) = offset
  ended : ∀ c ∈ above.getLast?, c = '\n'
  unbroken : '\n' ∉ line

theorem IsBoundary.exists_standsBehind {source : List Char} {offset : Nat} (h : IsBoundary source offset) :
    ∃ above line, StandsBehind source offset above line := by
  obtain ⟨before, hstart, hsize⟩ := h
  have hcut : before.rdropWhile (· != '\n') ++ before.rtakeWhile (· != '\n') = before :=
    List.rdropWhile_append_rtakeWhile
  refine ⟨before.rdropWhile (· != '\n'), before.rtakeWhile (· != '\n'), by rwa [hcut], by rwa [hcut], ?_, ?_⟩
  · intro c hc
    obtain ⟨hne, rfl⟩ := List.mem_getLast?_eq_getLast hc
    simpa using List.rdropWhile_last_not (· != '\n') before hne
  · intro hmem
    simpa using List.mem_rtakeWhile_imp hmem

/-- Nothing behind the last line feed is on another line. -/
theorem StandsBehind.rtakeWhile_eq {source above line : List Char} {offset : Nat}
    (h : StandsBehind source offset above line) : (above ++ line).rtakeWhile (· != '\n') = line := by
  have hline : ∀ c ∈ line.reverse, (c != '\n') = true := by
    intro c hc
    simpa using ne_of_mem_of_not_mem (List.mem_reverse.mp hc) h.unbroken
  have habove : above.rtakeWhile (· != '\n') = [] :=
    List.rtakeWhile_eq_nil_iff.mpr fun hne => by simp [h.ended _ (List.getLast?_eq_some_getLast hne)]
  rw [List.rtakeWhile, List.reverse_append, List.takeWhile_append_of_pos hline, List.reverse_append,
    List.reverse_reverse, ← List.rtakeWhile, habove, List.nil_append]

theorem StandsBehind.position_eq {source above line : List Char} {offset : Nat}
    (h : StandsBehind source offset above line) :
    Position.at source offset = ⟨offset, above.count '\n' + 1, line.length + 1⟩ := by
  rw [← h.size, Position.at_byteSize h.starts, Position.after_eq, h.rtakeWhile_eq, List.count_append,
    List.count_eq_zero.mpr h.unbroken, Nat.add_zero]

/-- What an offset is resolved to, as the start or as the end of a span. -/
inductive ResolvesTo (source : List Char) : Nat → Position → Prop
  | start (span : Span) : ResolvesTo source span.start (span.resolve source).start
  | stop (span : Span) : ResolvesTo source span.stop (span.resolve source).stop

theorem ResolvesTo.eq_at {source : List Char} {offset : Nat} {p : Position} (h : ResolvesTo source offset p) :
    p = .at source offset := by
  cases h <;> rfl

/-- The positions of offsets between characters stand in the order of the offsets, so that line and column determine
the offset. The line counts the line feeds before the offset and the column the characters since the last of them,
both starting at one. An offset beyond the end of the text has the position of the end. -/
theorem Span.resolve_identifies (source : List Char) :
    (∀ o₁ o₂ p₁ p₂, IsBoundary source o₁ → IsBoundary source o₂ → ResolvesTo source o₁ p₁ → ResolvesTo source o₂ p₂ →
      (p₁.lineColumn < p₂.lineColumn ↔ o₁ < o₂) ∧ (p₁.line = p₂.line ∧ p₁.column = p₂.column ↔ o₁ = o₂)) ∧
    (∀ offset p, IsBoundary source offset → ResolvesTo source offset p →
      ∃ above line, StandsBehind source offset above line ∧
        p.line = above.count '\n' + 1 ∧ p.column = line.length + 1) ∧
    ∀ offset p last, byteSize source ≤ offset → ResolvesTo source offset p →
      ResolvesTo source (byteSize source) last → p = last := by
  refine ⟨?_, ?_, ?_⟩
  · intro o₁ o₂ p₁ p₂ h₁ h₂ hp₁ hp₂
    have hmono := Position.strictMonoOn_lineColumn source
    obtain rfl := hp₁.eq_at
    obtain rfl := hp₂.eq_at
    refine ⟨hmono.lt_iff_lt h₁ h₂, ?_⟩
    rw [← hmono.eq_iff_eq h₁ h₂]
    simp [Position.lineColumn]
  · intro offset p h hp
    obtain ⟨above, line, hstands⟩ := h.exists_standsBehind
    rw [hp.eq_at, hstands.position_eq]
    exact ⟨above, line, hstands, rfl, rfl⟩
  · intro offset p last h hp hlast
    rw [hp.eq_at, hlast.eq_at, Position.at_of_le h]

/-- The two ends of a line feed, with characters of more than one byte before and behind it, and an offset beyond the
end. -/
theorem Span.resolve_identifies_umlauts :
    let source := "é\nüb".toList
    let feed := Span.resolve ⟨2, 3⟩ source
    IsBoundary source 2 ∧ IsBoundary source 3 ∧ byteSize source ≤ 9 ∧
      (feed.start.lineColumn < feed.stop.lineColumn ↔ 2 < 3) ∧
      (∃ above line, StandsBehind source 3 above line ∧
        feed.stop.line = above.count '\n' + 1 ∧ feed.stop.column = line.length + 1) ∧
      (Span.resolve ⟨9, 6⟩ source).start = (Span.resolve ⟨9, 6⟩ source).stop ∧
      feed = ⟨⟨2, 1, 2⟩, ⟨3, 2, 1⟩⟩ ∧ Span.resolve ⟨9, 6⟩ source = ⟨⟨6, 2, 3⟩, ⟨6, 2, 3⟩⟩ := by
  intro source feed
  have hbefore : IsBoundary source 2 := by decide
  have hbehind : IsBoundary source 3 := by decide
  obtain ⟨horder, hcolumn, hend⟩ := resolve_identifies source
  refine ⟨hbefore, hbehind, by decide, ?_, ?_, ?_, by decide, by decide⟩
  · exact (horder 2 3 _ _ hbefore hbehind (.start ⟨2, 3⟩) (.stop ⟨2, 3⟩)).1
  · exact hcolumn 3 _ hbehind (.stop ⟨2, 3⟩)
  · exact hend 9 _ _ (by decide) (.start ⟨9, 6⟩) (.stop ⟨9, 6⟩)

/-- Inside a character there is no position but that of the end. -/
example : Position.at "éa".toList 1 = ⟨1, 1, 3⟩ := by decide

end TypeSchema
