import SinkTrace.Proofs.Libraries.Yaml.Lines
import SinkTrace.Libraries.Yaml.Token

/-!
The scanner on lines as they are written: a key with its colon, a scalar up to the next line,
brackets with nothing between them, and dashes. A run from one state is a run from another if the
tokens between them are read, and it does not matter which of two states it is that settle alike
in front of the next token. Whatever is written ends where a line begins, so the lemmas on larger
pieces say what has been read when the scanner reaches the lines behind them.
-/

namespace SinkTrace.Yaml

/-- What a line may hold behind its indentation: no gap first and no comment. -/
def StartsLine (text : List Char) : Prop := ∀ c ∈ text.head?, gapFirst [c] = false ∧ c ≠ '#'

theorem StartsLine.solid {text : List Char} (h : StartsLine text) : Solid text :=
  fun c hc => (h c hc).1

theorem startsLine_nil : StartsLine [] := by
  rintro c ⟨⟩

theorem startsLine_cons {c : Char} {text : List Char} (hg : gapFirst [c] = false) (hc : c ≠ '#') :
    StartsLine (c :: text) := by
  rintro d ⟨⟩
  exact ⟨hg, hc⟩

/-- Lines of which the first is indented by so many columns at most. -/
def Level (k : Nat) (text : List Char) : Prop :=
  ∃ n next, text = List.replicate n ' ' ++ next ∧ n ≤ k ∧ StartsLine next

theorem level_nil (k : Nat) : Level k [] := ⟨0, [], rfl, Nat.zero_le k, startsLine_nil⟩

theorem Level.mono {k k' : Nat} {text : List Char} (h : Level k text) (hk : k ≤ k') :
    Level k' text := by
  obtain ⟨n, next, rfl, hn, hnext⟩ := h
  exact ⟨n, next, rfl, Nat.le_trans hn hk, hnext⟩

namespace Scanner

variable {s t u : Scanner} {tokens tokens' : List Token} {indents indents' outer : List Nat}
  {allowed : Bool} {mark : Option KeyMark} {text rest next lines lines' : List Char} {c : Char}
  {l col i n k fuel : Nat}

/-- Up to the next token. -/
def settle? (s : Scanner) : Option Scanner := (s.skipGap s.cursor.rest.length).dropStale?

theorem run?_congr (h : s.settle? = t.settle?) : s.run? fuel = t.run? fuel := by
  cases fuel with
  | zero => rfl
  | succ fuel =>
    unfold settle? at h
    rw [run?, run?, h]

theorem run?_token (h : s.settle? = some t) (hr : t.cursor.rest = c :: rest) :
    s.run? (fuel + 1) = ((t.closeTo t.cursor.column).token? c rest).bind (run? fuel) := by
  unfold settle? at h
  rw [run?, h]
  simp only [Option.bind_eq_bind, Option.bind_some, hr]

theorem run?_end (h : s.settle? = some t) (hr : t.cursor.rest = []) (hm : t.possibleKey = none) :
    s.run? (fuel + 1) = some t.closeAll.tokens.reverse := by
  have hkey : t.closeAll.possibleKey = none := by
    unfold closeAll
    split <;> exact hm
  unfold settle? at h
  rw [run?, h]
  simp [hr, dropKey?, hkey]

/-- A run from the first state is one from the second: enough fuel for the one leaves enough for
the other. -/
def Scans (s t : Scanner) : Prop := ∀ fuel, s.cursor.rest.length < fuel →
  ∃ fuel', t.cursor.rest.length < fuel' ∧ s.run? fuel = t.run? fuel'

theorem Scans.trans (hst : Scans s t) (htu : Scans t u) : Scans s u := by
  intro fuel hf
  obtain ⟨fuel', hf', hrun⟩ := hst fuel hf
  obtain ⟨fuel'', hf'', hrun'⟩ := htu fuel' hf'
  exact ⟨fuel'', hf'', hrun.trans hrun'⟩

theorem Scans.settle (h : s.settle? = t.settle?)
    (hle : t.cursor.rest.length ≤ s.cursor.rest.length) : Scans s t :=
  fun fuel hf => ⟨fuel, Nat.lt_of_le_of_lt hle hf, run?_congr h⟩

theorem Scans.token {v : Scanner} (h : s.settle? = some t) (hr : t.cursor.rest = c :: rest)
    (ht : (t.closeTo t.cursor.column).token? c rest = some u) (hu : u.settle? = v.settle?)
    (hlt : v.cursor.rest.length < s.cursor.rest.length) : Scans s v := by
  intro fuel hf
  obtain ⟨fuel, rfl⟩ : ∃ m, fuel = m + 1 := ⟨fuel - 1, by omega⟩
  exact ⟨fuel, by omega, by rw [run?_token h hr, ht, Option.bind_some, run?_congr hu]⟩

/-- A run from `s` comes to the beginning of these lines, with these tokens read by then. -/
def ReachesLine (s : Scanner) (lines : List Char) (tokens : List Token) (indents : List Nat) :
    Prop :=
  ∃ l i, Scans s ⟨⟨lines, l, 0, i⟩, tokens, indents, true, none, []⟩

theorem ReachesLine.refl :
    ReachesLine ⟨⟨lines, l, 0, i⟩, tokens, indents, true, none, []⟩ lines tokens indents :=
  ⟨l, i, .settle rfl (Nat.le_refl _)⟩

theorem Scans.reachesLine (hst : Scans s t) (ht : t.ReachesLine lines tokens indents) :
    s.ReachesLine lines tokens indents := by
  obtain ⟨l, i, hline⟩ := ht
  exact ⟨l, i, hst.trans hline⟩

theorem ReachesLine.trans (hs : s.ReachesLine lines tokens indents)
    (hlines : ∀ {l i}, ReachesLine ⟨⟨lines, l, 0, i⟩, tokens, indents, true, none, []⟩ lines'
      tokens' indents') : s.ReachesLine lines' tokens' indents' := by
  obtain ⟨l, i, hline⟩ := hs
  exact hline.reachesLine hlines

/-! Gaps. -/

theorem skipGap_startsLine (h : StartsLine s.cursor.rest) : s.skipGap fuel = s := by
  cases fuel with
  | zero => rw [skipGap]
  | succ fuel =>
    unfold skipGap
    split
    · rfl
    · rfl
    · rename_i c rest hrest heq
      cases hrest
      obtain ⟨hgap, hcomment⟩ := h c (by rw [heq]; rfl)
      simp only [gapFirst, isBlank, Bool.or_eq_false_iff, beq_eq_false_iff_ne] at hgap
      rw [if_neg (by simp [hgap]), if_neg (by simp [hcomment]), if_neg (by simp [hgap])]

/-- A key that may have started on an earlier line, where something else could stand as well. -/
def Stale (l : Nat) (mark : Option KeyMark) : Prop := ∀ k ∈ mark, k.line < l ∧ k.required = false

theorem stale_none : Stale l none := by
  rintro k ⟨⟩

theorem settle?_line (h : StartsLine text) (hm : Stale l mark) :
    settle? ⟨⟨text, l, col, i⟩, tokens, indents, allowed, mark, []⟩ =
      some ⟨⟨text, l, col, i⟩, tokens, indents, allowed, none, []⟩ := by
  rw [settle?, skipGap_startsLine h]
  cases mark with
  | none => rfl
  | some k =>
    obtain ⟨hline, hrequired⟩ := hm k rfl
    simp [dropStale?, KeyMark.current?, hline, hrequired]

theorem settle?_space : settle? ⟨⟨' ' :: text, l, col, i⟩, tokens, indents, allowed, mark, []⟩ =
    settle? ⟨⟨text, l, col + 1, i + 1⟩, tokens, indents, allowed, mark, []⟩ :=
  rfl

theorem settle?_newline :
    settle? ⟨⟨'\n' :: text, l, col, i⟩, tokens, indents, allowed, mark, []⟩ =
      settle? ⟨⟨text, l + 1, 0, i + 1⟩, tokens, indents, true, mark, []⟩ := by
  cases allowed <;> rfl

theorem settle?_spaces (n : Nat) :
    settle? ⟨⟨List.replicate n ' ' ++ text, l, col, i⟩, tokens, indents, allowed, mark, []⟩ =
      settle? ⟨⟨text, l, col + n, i + n⟩, tokens, indents, allowed, mark, []⟩ := by
  induction n generalizing col i with
  | zero => rfl
  | succ n ih =>
    rw [List.replicate_succ, List.cons_append, settle?_space, ih]
    simp only [Nat.add_assoc, Nat.add_comm 1]

theorem settle?_level (hlines : Level k lines) (hm : Stale l mark) :
    settle? ⟨⟨lines, l, col, i⟩, tokens, indents, allowed, mark, []⟩ =
      settle? ⟨⟨lines, l, col, i⟩, tokens, indents, allowed, none, []⟩ := by
  obtain ⟨n, next, rfl, -, hnext⟩ := hlines
  rw [settle?_spaces, settle?_spaces, settle?_line hnext hm, settle?_line hnext stale_none]

/-- To the next line, where no key has started. -/
theorem reachesLine_newline (hlines : Level k lines) (hm : Stale (l + 1) mark) :
    ReachesLine ⟨⟨'\n' :: lines, l, col, i⟩, tokens, indents, allowed, mark, []⟩ lines tokens
      indents :=
  ⟨l + 1, i + 1, .settle (by rw [settle?_newline, settle?_level hlines hm]) (Nat.le_succ _)⟩

/-- From the beginning of a line to its first word. -/
theorem scans_indentation (n : Nat) :
    Scans ⟨⟨List.replicate n ' ' ++ text, l, 0, i⟩, tokens, indents, true, none, []⟩
      ⟨⟨text, l, n, i + n⟩, tokens, indents, true, none, []⟩ :=
  .settle (by rw [settle?_spaces, Nat.zero_add]) (by simp)

theorem scans_space : Scans ⟨⟨' ' :: text, l, col, i⟩, tokens, indents, allowed, mark, []⟩
    ⟨⟨text, l, col + 1, i + 1⟩, tokens, indents, allowed, mark, []⟩ :=
  .settle settle?_space (by simp)

/-! Collections that end. -/

theorem closeTo_of_le (hb : s.outerKeys = []) (h : ∀ k ∈ s.indents.head?, k ≤ col) :
    s.closeTo col = s := by
  obtain ⟨cursor, tokens, indents, allowed, mark, outerKeys⟩ := s
  cases hb
  cases indents with
  | nil => rfl
  | cons k indents =>
    have hk := h k rfl
    simp [closeTo, inBrackets, hk]

/-- One token, at a place that no collection ends in front of. -/
theorem scans_token (hline : StartsLine (c :: rest)) (hind : ∀ k ∈ indents.head?, k ≤ col)
    (ht : token? c rest ⟨⟨c :: rest, l, col, i⟩, tokens, indents, allowed, none, []⟩ = some u)
    (hu : u.settle? = t.settle?) (hlt : t.cursor.rest.length ≤ rest.length) :
    Scans ⟨⟨c :: rest, l, col, i⟩, tokens, indents, allowed, none, []⟩ t :=
  .token (settle?_line hline stale_none) rfl (by rw [closeTo_of_le rfl hind]; exact ht) hu
    (Nat.lt_succ_of_le hlt)

/-- A line further left ends the innermost collection. -/
theorem reachesLine_close {k' : Nat} (hlines : Level k lines) (hk : k < k') :
    ReachesLine ⟨⟨lines, l, 0, i⟩, tokens, k' :: indents, true, none, []⟩ lines
      (.blockEnd :: tokens) indents := by
  obtain ⟨n, next, rfl, hn, hnext⟩ := hlines
  refine ⟨l, i, fun fuel hf => ?_⟩
  obtain ⟨fuel, rfl⟩ : ∃ m, fuel = m + 1 := ⟨fuel - 1, by omega⟩
  refine ⟨fuel + 1, hf, ?_⟩
  have hsettle : ∀ tokens indents,
      settle? ⟨⟨List.replicate n ' ' ++ next, l, 0, i⟩, tokens, indents, true, none, []⟩ =
        some ⟨⟨next, l, 0 + n, i + n⟩, tokens, indents, true, none, []⟩ :=
    fun _ _ => by rw [settle?_spaces, settle?_line hnext stale_none]
  cases next with
  | nil =>
    rw [run?_end (hsettle _ _) rfl rfl, run?_end (hsettle _ _) rfl rfl]
    simp [closeAll, inBrackets, List.replicate_succ']
  | cons c rest =>
    have hlt : n < k' := Nat.lt_of_le_of_lt hn hk
    rw [run?_token (hsettle _ _) rfl, run?_token (hsettle _ _) rfl]
    simp [closeTo, inBrackets, hlt, List.replicate_succ']

theorem run?_done (hf : 0 < fuel) :
    run? fuel ⟨⟨[], l, col, i⟩, tokens, indents, allowed, none, []⟩ =
      some (List.replicate indents.length Token.blockEnd ++ tokens).reverse := by
  obtain ⟨fuel, rfl⟩ : ∃ m, fuel = m + 1 := ⟨fuel - 1, by omega⟩
  rw [run?_end (settle?_line startsLine_nil stale_none) rfl rfl]
  rfl

/-! Scalars without quotes. -/

/-- Where a scalar without quotes starts, none of the other tokens does. -/
theorem token?_plain (hr : s.cursor.rest = c :: rest) (hb : s.outerKeys = [])
    (hs : startsPlain false (c :: rest) = true)
    (hm : s.cursor.atMark "---" = false ∧ s.cursor.atMark "..." = false) :
    s.token? c rest = s.plain? := by
  have hnot : ∀ a ∈ "%[]\x7b\x7d,*&!|>'\"".toList, startsPlain false (a :: rest) = false := by
    simp [startsPlain, gapFirst, isBlank, isBreak, isIndicator, isBracketMark]
  have hne : ∀ a ∈ "%[]\x7b\x7d,*&!|>'\"".toList, c ≠ a := by
    rintro a ha rfl
    rw [hnot c ha] at hs
    cases hs
  have hlone : ∀ a, a = '-' ∨ a = '?' ∨ a = ':' → ¬(c = a ∧ gapFirst rest = true) := by
    rintro a ha ⟨rfl, hgap⟩
    rcases ha with rfl | rfl | rfl <;> simp [startsPlain, hgap] at hs
  have hin : s.inBrackets = false := by simp [inBrackets, hb]
  simp at hne
  unfold token?
  simp [hin, hm, hs, hne]
  rw [if_neg (hlone '-' (by simp)), if_neg (hlone '?' (by simp)), if_neg (hlone ':' (by simp))]

/-- The mark of a scalar on the line of its key or dash, which nothing else requires to be a
key. -/
def scalarMark (allowed : Bool) (position l col i : Nat) : Option KeyMark :=
  if allowed then some ⟨position, l, col, i, false⟩ else none

theorem stale_scalarMark (h : l < n) (position : Nat) :
    Stale n (scalarMark allowed position l col i) := by
  unfold scalarMark
  split
  · rintro k ⟨⟩
    exact ⟨h, rfl⟩
  · exact stale_none

theorem markKey?_allowed : markKey? ⟨⟨text, l, col, i⟩, tokens, indents, true, none, []⟩ =
    some ⟨⟨text, l, col, i⟩, tokens, indents, true,
      some ⟨tokens.length, l, col, i, indents.head? == some col⟩, []⟩ := by
  simp [markKey?, dropKey?, inBrackets, indent?]

theorem markKey?_scalar (hk : k < col) :
    markKey? ⟨⟨text, l, col, i⟩, tokens, k :: outer, allowed, none, []⟩ =
      some ⟨⟨text, l, col, i⟩, tokens, k :: outer, allowed,
        scalarMark allowed tokens.length l col i, []⟩ := by
  cases allowed with
  | false => rfl
  | true =>
    rw [markKey?_allowed]
    simp [scalarMark, Nat.ne_of_lt hk]

theorem startsPlain_append (hs : startsPlain false text = true) (after : List Char) :
    startsPlain false (text ++ after) = true := by
  cases text with
  | nil => cases hs
  | cons c text =>
    have hgap : gapFirst text = false → gapFirst (text ++ after) = false := by
      cases text with
      | nil => nofun
      | cons d text => exact id
    simp only [startsPlain, List.cons_append] at hs ⊢
    split at hs
    · simp_all
    · split at hs <;> simp_all

theorem startsLine_of_startsPlain (hs : startsPlain false text = true) (after : List Char) :
    StartsLine (text ++ after) := by
  cases text with
  | nil => cases hs
  | cons c text =>
    have hnot : ∀ a, gapFirst [a] = true ∨ a = '#' → startsPlain false (a :: text) = false := by
      rintro a (ha | rfl)
      · have hne : a ≠ '-' ∧ a ≠ '?' ∧ a ≠ ':' := by
          refine ⟨?_, ?_, ?_⟩ <;> rintro rfl <;> exact absurd ha (by decide)
        simp [startsPlain, ha, hne]
      · rfl
    refine startsLine_cons (Bool.eq_false_iff.mpr fun h => ?_) fun h => ?_
    · rw [hnot c (.inl h)] at hs
      cases hs
    · rw [hnot c (.inr h)] at hs
      cases hs

theorem plain?_eq {cursor : Cursor} {ended : Bool} (hm : s.markKey? = some t)
    (hr : Yaml.plain? t.inBrackets t.continued t.cursor = some (text, ended, cursor)) :
    s.plain? = some ⟨cursor, .scalar .plain text :: t.tokens, t.indents, ended, t.possibleKey,
      t.outerKeys⟩ := by
  simp only [plain?, hm, hr, Option.bind_eq_bind, Option.bind_some]
  rfl

/-- A scalar without quotes up to the next line, which is not indented further than the
surroundings. -/
theorem reachesLine_plain (hk : k < col) (hlines : Level k lines)
    (hs : startsPlain false text = true) (hc : continuesPlain ' ' text = true) :
    ReachesLine ⟨⟨text ++ '\n' :: lines, l, col, i⟩, tokens, k :: outer, allowed, none, []⟩ lines
      (.scalar .plain text :: tokens) (k :: outer) := by
  obtain ⟨c, rest, rfl⟩ := List.exists_cons_of_ne_nil (ne_nil_of_continues hc)
  have hstarts := startsPlain_append hs ('\n' :: lines)
  have hline := startsLine_of_startsPlain hs ('\n' :: lines)
  obtain ⟨n, next, rfl, hn, hnext⟩ := hlines
  have hpos : 0 < col := Nat.lt_of_le_of_lt (Nat.zero_le k) hk
  have hend : PlainEnd (k + 1) l ('\n' :: (List.replicate n ' ' ++ next)) true
      fun _ i => ⟨next, l + 1, n, i + (1 + n)⟩ :=
    plainEnd_line (Nat.lt_succ_of_le hn) hnext.solid
  have hcol : k + 1 ≤ col + 1 := Nat.le_succ_of_le hk
  have htoken := (token?_plain rfl rfl hstarts
    ⟨Cursor.atMark_of_column_pos hpos _, Cursor.atMark_of_column_pos hpos _⟩).trans
      (plain?_eq (@markKey?_scalar tokens outer allowed _ l col i k hk)
        (plain?_text col i hend hs hc hcol))
  refine ⟨l + 1, i + (c :: rest).length + 1, scans_token hline (by simp; omega) htoken ?_
    (by simp; omega)⟩
  rw [settle?_spaces, settle?_line hnext (stale_scalarMark (Nat.lt_succ_self l) _),
    settle?_line hnext stale_none]
  simp only [Nat.zero_add, Nat.add_assoc]

/-! Scalars in quotes. -/

theorem quoted?_eq {read : Nat → Cursor → Option (List Char × Cursor)} {cursor : Cursor}
    (hm : s.markKey? = some t)
    (hr : read t.cursor.rest.length t.cursor.next = some (text, cursor)) :
    s.quoted? read = some ⟨cursor, .scalar .quoted text :: t.tokens, t.indents, false,
      t.possibleKey, t.outerKeys⟩ := by
  simp only [quoted?, hm, hr, Option.bind_eq_bind, Option.bind_some]
  rfl

theorem length_le_flatMap {f : Char → List Char} (hf : ∀ c, f c ≠ []) (text : List Char) :
    text.length ≤ (text.flatMap f).length := by
  induction text with
  | nil => exact Nat.le_refl 0
  | cons c text ih =>
    have hc := List.length_pos_iff.mpr (hf c)
    rw [List.flatMap_cons, List.length_append, List.length_cons]
    omega

theorem length_le_indented (indent : Nat) (fresh : Bool) (text : List Char) :
    text.length ≤ (indented indent fresh text).length := by
  induction text generalizing fresh with
  | nil => exact Nat.zero_le _
  | cons c text ih =>
    rw [indented]
    split
    · exact Nat.succ_le_succ (ih true)
    · rw [List.length_append, List.length_cons, List.length_cons]
      exact Nat.le_add_left_of_le (Nat.succ_le_succ (ih false))

theorem length_le_singleBody (indent : Nat) (text : List Char) :
    text.length ≤ (singleBody indent text).length := by
  have hescape : text.length ≤ (escapeSingle text).length :=
    length_le_flatMap (fun c => by split <;> simp) text
  have hindented := length_le_indented indent false (escapeSingle text)
  rw [singleBody, List.length_append]
  omega

/-- A quote, and how the text between it and the next one is read. -/
inductive Quotes : Char → (Nat → Cursor → Option (List Char × Cursor)) → Prop where
  | single : Quotes '\'' singleQuoted?
  | double : Quotes '"' doubleQuoted?

variable {mark : Char} {read : Nat → Cursor → Option (List Char × Cursor)} {body : List Char}

theorem token?_quote (hq : Quotes mark read) (hpos : 0 < s.cursor.column) (rest : List Char) :
    s.token? mark rest = s.quoted? read := by
  unfold token?
  rw [Cursor.atMark_of_column_pos hpos, Cursor.atMark_of_column_pos hpos]
  cases hq <;> simp

/-- What stands between quotes, up to the next line. -/
theorem reachesLine_quoted (hq : Quotes mark read) (hk : k < col) (hlines : Level k lines)
    (hlen : text.length ≤ body.length)
    (hread : ∀ {fuel}, text.length < fuel → ∃ l' col' i', l ≤ l' ∧
      read fuel ⟨body ++ mark :: '\n' :: lines, l, col + 1, i + 1⟩ =
        some (text, ⟨'\n' :: lines, l', col', i'⟩)) :
    ReachesLine ⟨⟨mark :: (body ++ mark :: '\n' :: lines), l, col, i⟩, tokens, k :: outer, allowed,
      none, []⟩ lines (.scalar .quoted text :: tokens) (k :: outer) := by
  have hpos : 0 < col := Nat.lt_of_le_of_lt (Nat.zero_le k) hk
  have hmark : gapFirst [mark] = false ∧ isBreak mark = false ∧ mark ≠ '#' := by
    cases hq <;> decide
  obtain ⟨l', col', i', hl, hread⟩ := hread
    (show text.length < (mark :: (body ++ mark :: '\n' :: lines)).length by simp; omega)
  have htoken := (token?_quote hq hpos (body ++ mark :: '\n' :: lines)).trans
    (quoted?_eq (@markKey?_scalar tokens outer allowed _ l col i k hk)
      ((congrArg (read _) (Cursor.next_of_inline hmark.2.1)).trans hread))
  refine Scans.reachesLine (scans_token (startsLine_cons hmark.1 hmark.2.2) (by simp; omega) htoken
    rfl (by simp; omega)) ?_
  exact reachesLine_newline hlines (stale_scalarMark (Nat.lt_succ_of_le hl) _)

theorem reachesLine_single {indent : Nat} (hindent : 0 < indent) (hk : k < col)
    (hlines : Level k lines) (hfits : fitsSingle text = true) (hlf : '\n' ∉ text) :
    ReachesLine ⟨⟨single indent text ++ '\n' :: lines, l, col, i⟩, tokens, k :: outer, allowed,
      none, []⟩ lines (.scalar .quoted text :: tokens) (k :: outer) := by
  rw [single_eq, List.cons_append, List.append_assoc, List.singleton_append]
  exact reachesLine_quoted .single hk hlines (length_le_singleBody indent text) fun hf =>
    singleQuoted?_body hindent (Nat.succ_pos col) (by simp) hfits hlf hf

theorem reachesLine_double (hk : k < col) (hlines : Level k lines) :
    ReachesLine ⟨⟨double text ++ '\n' :: lines, l, col, i⟩, tokens, k :: outer, allowed, none, []⟩
      lines (.scalar .quoted text :: tokens) (k :: outer) := by
  have hne : ∀ c, escape c ≠ [] := fun c h => by
    have hc := escaped_escape c
    rw [h] at hc
    cases hc
  rw [double, List.cons_append, List.cons_append, List.append_assoc, List.singleton_append]
  refine reachesLine_quoted .double hk hlines (length_le_flatMap hne text) fun hf => ?_
  obtain ⟨col', i', hread⟩ := doubleQuoted?_body (Nat.succ_pos col) hf
  exact ⟨l, col', i', Nat.le_refl l, hread⟩

/-- A scalar up to the next line. -/
theorem reachesLine_scalar {form : ScalarForm} {indent : Nat} (hw : Word form text)
    (hindent : 0 < indent) (hk : k < col) (hlines : Level k lines) :
    ReachesLine ⟨⟨scalarText indent form text ++ '\n' :: lines, l, col, i⟩, tokens, k :: outer,
      allowed, none, []⟩ lines (.scalar form text :: tokens) (k :: outer) := by
  cases hw with
  | plain hs hc => exact reachesLine_plain hk hlines hs hc
  | quoted hlf =>
    rw [scalarText, quote, if_neg (by simpa using hlf)]
    split
    · rename_i hfits
      exact reachesLine_single hindent hk hlines hfits hlf
    · exact reachesLine_double hk hlines

/-! Keys. -/

/-- Where a key at this column puts its tokens: into the mapping that is open there, or into a new
one. -/
inductive Opens (col : Nat) (tokens : List Token) : List Nat → List Nat → List Token → Prop where
  | inside {outer : List Nat} : Opens col tokens (col :: outer) (col :: outer) tokens
  | new {indents : List Nat} (h : ∀ k ∈ indents.head?, k < col) :
      Opens col tokens indents (col :: indents) (.blockMapStart :: tokens)

variable {key : List Char}

theorem Opens.head_le (h : Opens col tokens indents indents' tokens') :
    ∀ k ∈ indents.head?, k ≤ col := by
  cases h with
  | inside =>
    rintro k ⟨⟩
    exact Nat.le_refl col
  | new h => exact fun k hk => Nat.le_of_lt (h k hk)

theorem value?_key (ho : Opens col tokens indents indents' tokens') {required : Bool} :
    value? ⟨⟨':' :: rest, l, n, i⟩, .scalar .plain key :: tokens, indents, false,
        some ⟨tokens.length, l, col, k, required⟩, []⟩ =
      some ⟨⟨rest, l, n + 1, i + 1⟩, .value :: .scalar .plain key :: .key :: tokens', indents',
        false, none, []⟩ := by
  have hskip : (⟨':' :: rest, l, n, i⟩ : Cursor).skip 1 = ⟨rest, l, n + 1, i + 1⟩ := rfl
  have hlength : tokens.length + 1 + 1 - tokens.length = 2 := by omega
  cases ho with
  | inside => simp [value?, openAt, inBrackets, indent?, emit, hskip]
  | new h =>
    cases indents with
    | nil => simp [value?, openAt, inBrackets, indent?, emit, hskip, hlength]
    | cons k' outer =>
      have hk := h k' rfl
      simp [value?, openAt, inBrackets, indent?, emit, hskip, hk, hlength]

theorem atMark_of_head (hc : c ≠ '-' ∧ c ≠ '.') :
    (⟨c :: rest, l, col, i⟩ : Cursor).atMark "---" = false ∧
      (⟨c :: rest, l, col, i⟩ : Cursor).atMark "..." = false := by
  simp [Cursor.atMark, hc.1.symm, hc.2.symm]

theorem atMark_key (hm : startsMarker key = false) :
    (⟨key ++ ':' :: rest, l, col, i⟩ : Cursor).atMark "---" = false ∧
      (⟨key ++ ':' :: rest, l, col, i⟩ : Cursor).atMark "..." = false := by
  have hprefix : ∀ a, a ≠ ':' → [a, a, a].isPrefixOf (key ++ ':' :: rest) =
      [a, a, a].isPrefixOf key := by
    intro a ha
    match key with
    | [] | [_] | [_, _] => simp [List.isPrefixOf, ha]
    | _ :: _ :: _ :: _ => simp [List.isPrefixOf]
  simp only [startsMarker, Bool.or_eq_false_iff, String.reduceToList] at hm
  simp only [Cursor.atMark, String.reduceToList, hprefix '-' (by decide), hprefix '.' (by decide),
    hm, Bool.and_false, Bool.false_and, and_self]

/-- The colon behind a key. -/
theorem scans_colon (ho : Opens col tokens indents indents' tokens') (hgap : gapFirst rest = true)
    (hcol : col ≤ n) (hi : i ≤ k + 1024) {required : Bool} :
    Scans ⟨⟨':' :: rest, l, n, i⟩, .scalar .plain key :: tokens, indents, false,
        some ⟨tokens.length, l, col, k, required⟩, []⟩
      ⟨⟨rest, l, n + 1, i + 1⟩, .value :: .scalar .plain key :: .key :: tokens', indents', false,
        none, []⟩ := by
  have hline : StartsLine (':' :: rest) := startsLine_cons (by decide) (by decide)
  refine .token (t := ⟨⟨':' :: rest, l, n, i⟩, .scalar .plain key :: tokens, indents, false,
    some ⟨tokens.length, l, col, k, required⟩, []⟩) ?_ rfl ?_ rfl (Nat.lt_succ_self _)
  · rw [settle?, skipGap_startsLine hline]
    simp [dropStale?, KeyMark.current?, Nat.not_lt.mpr hi]
  · have htoken : ∀ s : Scanner, s.cursor = ⟨':' :: rest, l, n, i⟩ →
        s.token? ':' rest = s.value? := by
      intro s hc
      simp [token?, hc, hgap, atMark_of_head]
    rw [closeTo_of_le rfl fun d hd => Nat.le_trans (ho.head_le d hd) hcol, htoken _ rfl,
      value?_key ho]

/-- A key and its colon. -/
theorem scans_key (h : IsKey key) (hgap : gapFirst rest = true)
    (ho : Opens col tokens indents indents' tokens') :
    Scans ⟨⟨key ++ ':' :: rest, l, col, i⟩, tokens, indents, true, none, []⟩
      ⟨⟨rest, l, col + key.length + 1, i + key.length + 1⟩,
        .value :: .scalar .plain key :: .key :: tokens', indents', false, none, []⟩ := by
  obtain ⟨hkey, hlen⟩ := h
  obtain ⟨-, hmarker, hs, hc⟩ := isPlain_iff.mp hkey
  obtain ⟨c, key, rfl⟩ := List.exists_cons_of_ne_nil (ne_nil_of_continues hc)
  have hcontinued : indents.head?.elim 0 (· + 1) ≤ col + 1 := by
    cases hhead : indents.head? with
    | none => exact Nat.zero_le _
    | some k => exact Nat.succ_le_succ (ho.head_le k hhead)
  have hread := plain?_text col i
    (@plainEnd_colon rest l (indents.head?.elim 0 (· + 1)) hgap) hs hc hcontinued
  have htoken := (token?_plain rfl rfl (startsPlain_append hs (':' :: rest))
    (atMark_key hmarker)).trans (plain?_eq (@markKey?_allowed tokens indents _ l col i) hread)
  exact (scans_token (startsLine_of_startsPlain hs _) ho.head_le htoken rfl (by simp)).trans
    (scans_colon ho hgap (Nat.le_add_right _ _) (by omega))

/-! Marks of collections. -/

/-- Brackets with nothing between them, up to the next line. -/
theorem reachesLine_brackets (hk : k < col) (hlines : Level k lines) :
    ReachesLine ⟨⟨'[' :: ']' :: '\n' :: lines, l, col, i⟩, tokens, k :: outer, false, none, []⟩
      lines (.seqEnd :: .seqStart :: tokens) (k :: outer) := by
  have hopen : Scans ⟨⟨'[' :: ']' :: '\n' :: lines, l, col, i⟩, tokens, k :: outer, false, none,
        []⟩
      ⟨⟨']' :: '\n' :: lines, l, col + 1, i + 1⟩, .seqStart :: tokens, k :: outer, true, none,
        [none]⟩ := by
    refine scans_token (startsLine_cons (by decide) (by decide)) (by simp; omega) ?_ rfl (by simp)
    simp [token?, atMark_of_head]
    rfl
  have hclose : Scans ⟨⟨']' :: '\n' :: lines, l, col + 1, i + 1⟩, .seqStart :: tokens, k :: outer,
        true, none, [none]⟩
      ⟨⟨'\n' :: lines, l, col + 2, i + 2⟩, .seqEnd :: .seqStart :: tokens, k :: outer, false, none,
        []⟩ := by
    refine .token (t := ⟨⟨']' :: '\n' :: lines, l, col + 1, i + 1⟩, .seqStart :: tokens, k :: outer,
      true, none, [none]⟩) rfl rfl ?_ rfl (by simp)
    simp [closeTo, inBrackets, token?, atMark_of_head]
    rfl
  exact (hopen.trans hclose).reachesLine (reachesLine_newline hlines stale_none)

/-- A dash on the level of the key above. -/
theorem scans_dash :
    Scans ⟨⟨'-' :: ' ' :: text, l, col, i⟩, tokens, col :: outer, true, none, []⟩
      ⟨⟨text, l, col + 2, i + 2⟩, .blockEntry :: tokens, col :: outer, true, none, []⟩ := by
  have htoken : token? '-' (' ' :: text)
      ⟨⟨'-' :: ' ' :: text, l, col, i⟩, tokens, col :: outer, true, none, []⟩ =
        some ⟨⟨' ' :: text, l, col + 1, i + 1⟩, .blockEntry :: tokens, col :: outer, true, none,
          []⟩ := by
    simp [token?, Cursor.atMark, gapFirst, isBlank, entry?, openAt, inBrackets, indent?, dropKey?,
      emit]
    rfl
  exact (scans_token (startsLine_cons (by decide) (by decide)) (by simp) htoken rfl (by simp)).trans
    scans_space

end Scanner

end SinkTrace.Yaml
