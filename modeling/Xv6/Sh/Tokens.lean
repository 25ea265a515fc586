import Xv6.Sh

namespace Xv6.Sh

open List

inductive Token where
  | lt | gt | gtgt | bar | amp | semi | lpar | rpar
  | word (w : List Byte)
  deriving DecidableEq

-- What gettoken() returns for a token, and the bytes of the token.
def Token.code : Token → Byte
  | .lt => ch '<'
  | .gt => ch '>'
  | .gtgt => ch '+'
  | .bar => ch '|'
  | .amp => ch '&'
  | .semi => ch ';'
  | .lpar => ch '('
  | .rpar => ch ')'
  | .word _ => ch 'a'

def Token.bytes : Token → List Byte
  | .gtgt => [ch '>', ch '>']
  | .word w => w
  | t => [t.code]

-- The tokens that are one byte and do not begin another one.
def single (c : Byte) : Option Token :=
  if c = ch '|' then some .bar
  else if c = ch '(' then some .lpar
  else if c = ch ')' then some .rpar
  else if c = ch ';' then some .semi
  else if c = ch '&' then some .amp
  else if c = ch '<' then some .lt
  else none

-- The sequence of tokens of a line: the longest ones, with white space between them.
def tokens : List Byte → List Token
  | [] => []
  | c :: cs =>
    if isSpace c then tokens cs
    else if c = ch '>' then
      if cs.head? = some (ch '>') then .gtgt :: tokens (cs.drop 1) else .gt :: tokens cs
    else
      match single c with
      | some t => t :: tokens cs
      | none => .word (c :: cs.takeWhile isWord) :: tokens (cs.dropWhile isWord)
termination_by l => l.length
decreasing_by
  all_goals simp only [length_cons, length_drop]
  · omega
  · omega
  · omega
  · omega
  · exact Nat.lt_succ_of_le (dropWhile_sublist isWord).length_le

variable {line : List Byte} {s : Nat} {c : Byte} {cs : List Byte} {p : Byte → Bool}

theorem charAt_of_drop (h : line.drop s = c :: cs) : charAt line s = c := by
  have hget : (line)[s]? = some c := by
    rw [← head?_drop, h]
    rfl
  rw [charAt, getD_eq_getElem?_getD, hget]
  rfl

theorem charAt_of_drop_nil (h : line.drop s = []) : charAt line s = 0 := by
  have hget : (line)[s]? = none := by
    rw [← head?_drop, h]
    rfl
  rw [charAt, getD_eq_getElem?_getD, hget]
  rfl

theorem drop_succ_of_drop (h : line.drop s = c :: cs) : line.drop (s + 1) = cs := by
  rw [← tail_drop, h]
  rfl

theorem lt_of_drop (h : line.drop s = c :: cs) : s < line.length := by
  by_contra hge
  rw [drop_eq_nil_of_le (by omega)] at h
  simp at h

theorem advance_spec : ∀ turns s, s ≤ line.length → line.length - s ≤ turns →
    advance line p turns s = s + ((line.drop s).takeWhile p).length ∧
    line.drop (advance line p turns s) = (line.drop s).dropWhile p ∧ advance line p turns s ≤ line.length := by
  intro turns
  induction turns with
  | zero =>
    intro s hs hle
    have hnil : line.drop s = [] := drop_eq_nil_of_le (by omega)
    simp [advance, hnil, hs]
  | succ turns ih =>
    intro s hs hle
    rw [advance]
    cases hd : line.drop s with
    | nil =>
      have hge : ¬s < line.length := by
        have := congrArg List.length hd
        simp only [length_drop, length_nil] at this
        omega
      simp [hge, hd, hs]
    | cons c cs =>
      have hlt := lt_of_drop hd
      rw [charAt_of_drop hd]
      by_cases hp : p c = true
      · obtain ⟨h1, h2, h3⟩ := ih (s + 1) (by omega) (by omega)
        rw [drop_succ_of_drop hd] at h1 h2
        rw [if_pos ⟨hlt, hp⟩]
        refine ⟨?_, ?_, h3⟩
        · rw [h1, takeWhile_cons_of_pos hp, length_cons]
          omega
        · rw [h2, dropWhile_cons_of_pos hp]
      · rw [if_neg (fun h => hp h.2), takeWhile_cons_of_neg hp, dropWhile_cons_of_neg hp]
        exact ⟨rfl, hd, hs⟩

theorem drop_skip (hs : s ≤ line.length) : line.drop (skip line s) = (line.drop s).dropWhile isSpace :=
  (advance_spec _ s hs (Nat.le_refl _)).2.1

theorem skip_le (hs : s ≤ line.length) : skip line s ≤ line.length := (advance_spec _ s hs (Nat.le_refl _)).2.2

theorem tokens_space (h : isSpace c = true) (cs : List Byte) : tokens (c :: cs) = tokens cs := by
  rw [tokens, if_pos h]

theorem tokens_dropWhile (l : List Byte) : tokens (l.dropWhile isSpace) = tokens l := by
  induction l with
  | nil => rfl
  | cons c cs ih =>
    by_cases hc : isSpace c = true
    · rw [dropWhile_cons_of_pos hc, ih, tokens_space hc]
    · rw [dropWhile_cons_of_neg hc]

theorem tokens_skip (hs : s ≤ line.length) : tokens (line.drop (skip line s)) = tokens (line.drop s) := by
  rw [drop_skip hs, tokens_dropWhile]

theorem dropWhile_head (h : (line.dropWhile p) = c :: cs) : p c = false := by
  have := head_dropWhile_not p (l := line) (by simp [h])
  simpa [h] using this

-- A slice of the line that is a word, up to its end.
structure Slice.Ok (line : List Byte) (w : Slice) : Prop where
  lt : w.q < w.eq
  le : w.eq ≤ line.length
  word : ∀ i, w.q ≤ i → i < w.eq → isWord (charAt line i) = true
  stop : w.eq = line.length ∨ isWord (charAt line w.eq) = false

def content (line : List Byte) (w : Slice) : List Byte := (line.drop w.q).take (w.eq - w.q)

theorem single_eq_none (h : single c = none) :
    ¬(c = ch '|' ∨ c = ch '(' ∨ c = ch ')' ∨ c = ch ';' ∨ c = ch '&' ∨ c = ch '<') := by
  unfold single at h
  split_ifs at h
  tauto

theorem single_eq_some (h : single c = some t) :
    (c = ch '|' ∨ c = ch '(' ∨ c = ch ')' ∨ c = ch ';' ∨ c = ch '&' ∨ c = ch '<') ∧ t.code = c ∧ t.bytes = [c] ∧
    ∀ w, t ≠ .word w := by
  unfold single at h
  split_ifs at h <;> obtain rfl := Option.some.inj h <;> simp_all [Token.code, Token.bytes]

def toks (line : List Byte) (s : Nat) : List Token := tokens (line.drop s)

theorem toks_skip (hs : s ≤ line.length) : toks line (skip line s) = toks line s := tokens_skip hs

theorem toks_of_drop (h : line.drop s = cs) : toks line s = tokens cs := by rw [toks, h]

def Token.startsIn (cs : List Byte) : Token → Bool
  | .word _ => false
  | .gtgt => cs.contains (ch '>')
  | t => cs.contains t.code

theorem isWord_of_ne (hspace : ¬isSpace c = true) (hgt : c ≠ ch '>') (h : single c = none) : isWord c = true := by
  have hnot := single_eq_none h
  simp only [isSpace] at hspace
  simp only [isWord, symbols, contains_cons, contains_nil, Bool.and_eq_true, Bool.not_eq_true',
    Bool.or_eq_false_iff, beq_eq_false_iff_ne]
  simp only [not_or] at hnot
  exact ⟨by simpa using hspace, hnot.2.2.2.2.2, hnot.1, hgt, hnot.2.2.2.2.1, hnot.2.2.2.1, hnot.2.1, hnot.2.2.1,
    trivial⟩

theorem tokens_cons (cs : List Byte) (hspace : ¬isSpace c = true) :
    (c = ch '>' ∧ cs.head? = some (ch '>') ∧ tokens (c :: cs) = .gtgt :: tokens (cs.drop 1)) ∨
    (c = ch '>' ∧ cs.head? ≠ some (ch '>') ∧ tokens (c :: cs) = .gt :: tokens cs) ∨
    (c ≠ ch '>' ∧ ∃ t, single c = some t ∧ tokens (c :: cs) = t :: tokens cs) ∨
    (c ≠ ch '>' ∧ single c = none ∧ isWord c = true ∧
      tokens (c :: cs) = .word (c :: cs.takeWhile isWord) :: tokens (cs.dropWhile isWord)) := by
  rw [tokens, if_neg hspace]
  by_cases hgt : c = ch '>'
  · rw [if_pos hgt]
    by_cases hhead : cs.head? = some (ch '>')
    · exact .inl ⟨hgt, hhead, if_pos hhead⟩
    · exact .inr (.inl ⟨hgt, hhead, if_neg hhead⟩)
  · rw [if_neg hgt]
    cases hsingle : single c with
    | some t => exact .inr (.inr (.inl ⟨hgt, t, rfl, rfl⟩))
    | none => exact .inr (.inr (.inr ⟨hgt, rfl, isWord_of_ne hspace hgt hsingle, rfl⟩))

theorem tokens_ne_nil (cs : List Byte) (hspace : ¬isSpace c = true) : tokens (c :: cs) ≠ [] := by
  rcases tokens_cons cs hspace with ⟨-, -, h⟩ | ⟨-, -, h⟩ | ⟨-, u, -, h⟩ | ⟨-, -, -, h⟩ <;> rw [h] <;> simp

theorem startsIn_eq (hcs : ∀ c ∈ cs, isWord c = false)
    (hspace : ¬isSpace d = true) (ht : tokens (d :: ds) = t :: ts) : t.startsIn cs = cs.contains d := by
  rcases tokens_cons ds hspace with ⟨rfl, -, h⟩ | ⟨rfl, -, h⟩ | ⟨-, u, hu, h⟩ | ⟨-, -, hw, h⟩ <;>
    rw [h] at ht <;> obtain rfl := (List.cons.inj ht).1
  · rfl
  · rfl
  · have hcode := single_eq_some hu
    rw [← hcode.2.1]
    cases u with
    | word w => exact absurd rfl (hcode.2.2.2 w)
    | gtgt => simp [Token.bytes] at hcode
    | _ => rfl
  · cases hin : cs.contains d with
    | false => rfl
    | true =>
      rw [hcs d (by simpa using hin)] at hw
      simp at hw

theorem skip_cases (h0 : (0 : Byte) ∉ line) (hs : s ≤ line.length) :
    (line.drop (skip line s) = [] ∧ toks line s = []) ∨
    ∃ c cs, line.drop (skip line s) = c :: cs ∧ c ≠ 0 ∧ ¬isSpace c = true ∧ toks line s = tokens (c :: cs) := by
  have htoks := toks_skip hs
  cases hd : line.drop (skip line s) with
  | nil =>
    rw [toks_of_drop hd, tokens] at htoks
    exact .inl ⟨rfl, htoks.symm⟩
  | cons c cs =>
    have hmem : c ∈ line := mem_of_mem_drop (hd ▸ mem_cons_self)
    refine .inr ⟨c, cs, rfl, fun hc => h0 (hc ▸ hmem), ?_, ?_⟩
    · rw [drop_skip hs] at hd
      rw [dropWhile_head hd]
      simp
    · rw [← htoks, toks_of_drop hd]

theorem peek_spec (h0 : (0 : Byte) ∉ line) (hs : s ≤ line.length) (hcs : ∀ c ∈ cs, isWord c = false) :
    (peek line s cs).1 = (toks line s).head?.any (Token.startsIn cs) := by
  simp only [peek]
  rcases skip_cases h0 hs with ⟨hd, ht⟩ | ⟨d, ds, hd, hd0, hspace, ht⟩
  · rw [charAt_of_drop_nil hd, ht]
    rfl
  · rw [charAt_of_drop hd]
    cases hts : tokens (d :: ds) with
    | nil => exact absurd hts (tokens_ne_nil ds hspace)
    | cons t ts =>
      rw [ht, hts, head?_cons, Option.any_some, startsIn_eq hcs hspace hts,
        decide_eq_true hd0, Bool.true_and]

theorem toks_peek (hs : s ≤ line.length) : toks line (peek line s cs).2 = toks line s := toks_skip hs

theorem peek_le (hs : s ≤ line.length) : (peek line s cs).2 ≤ line.length := skip_le hs

theorem advance_word (hd : line.drop s = c :: cs) (hc : isWord c = true) :
    let e := advance line isWord (line.length - s) s
    Slice.Ok line { q := s, eq := e } ∧ content line { q := s, eq := e } = c :: cs.takeWhile isWord ∧
    line.drop e = cs.dropWhile isWord := by
  have hlt := lt_of_drop hd
  obtain ⟨h1, h2, h3⟩ := advance_spec (p := isWord) (line.length - s) s (Nat.le_of_lt hlt) (Nat.le_refl _)
  have htake : (line.drop s).takeWhile isWord = c :: cs.takeWhile isWord := by
    rw [hd, takeWhile_cons_of_pos hc]
  have hdrop : (line.drop s).dropWhile isWord = cs.dropWhile isWord := by
    rw [hd, dropWhile_cons_of_pos hc]
  rw [htake, length_cons] at h1
  rw [hdrop] at h2
  have hcontent : (line.drop s).take (advance line isWord (line.length - s) s - s) = c :: cs.takeWhile isWord := by
    rw [h1, Nat.add_sub_cancel_left, ← length_cons (a := c), ← htake,
      prefix_iff_eq_take.mp ( takeWhile_prefix isWord) |>.symm]
  refine ⟨⟨?_, h3, ?_, ?_⟩, hcontent, h2⟩
  · simp only
    omega
  · intro i hle hi
    simp only at hle hi
    have hget : (c :: cs.takeWhile isWord)[i - s]? = some (charAt line i) := by
      rw [← hcontent, getElem?_take_of_lt (by omega), getElem?_drop, charAt,
        getD_eq_getElem?_getD, Nat.add_sub_cancel' hle, getElem?_eq_getElem (by omega)]
      rfl
    have hmem := mem_of_getElem? hget
    rw [← htake] at hmem
    exact all_eq_true.mp all_takeWhile _ hmem
  · simp only
    cases hrest : cs.dropWhile isWord with
    | nil =>
      have hlen := congrArg List.length (h2.trans hrest)
      simp only [length_drop, length_nil] at hlen
      exact .inl (by omega)
    | cons d ds =>
      rw [charAt_of_drop (h2.trans hrest)]
      exact .inr (dropWhile_head hrest)

theorem gettoken_nil (hs : s ≤ line.length) (h0 : (0 : Byte) ∉ line) (h : toks line s = []) :
    (gettoken line s).ret = 0 ∧ toks line (gettoken line s).s = [] ∧ (gettoken line s).s ≤ line.length := by
  rcases skip_cases h0 hs with ⟨hd, -⟩ | ⟨d, ds, hd, hd0, hspace, ht⟩
  · have hle := skip_le hs
    simp only [gettoken, charAt_of_drop_nil hd, if_true]
    exact ⟨trivial, by rw [toks_skip hle, toks_skip hs, h], skip_le hle⟩
  · exact absurd (ht.symm.trans h) (tokens_ne_nil ds hspace)

theorem gettoken_cons (hs : s ≤ line.length) (h0 : (0 : Byte) ∉ line) (h : toks line s = t :: ts) :
    (gettoken line s).ret = t.code ∧ toks line (gettoken line s).s = ts ∧ (gettoken line s).s ≤ line.length ∧
    ∀ w, t = .word w → Slice.Ok line { q := (gettoken line s).q, eq := (gettoken line s).eq } ∧
      content line { q := (gettoken line s).q, eq := (gettoken line s).eq } = w := by
  rcases skip_cases h0 hs with ⟨-, ht⟩ | ⟨d, ds, hd, hd0, hspace, ht⟩
  · simp [h] at ht
  have hlt := lt_of_drop hd
  have hnext := drop_succ_of_drop hd
  rw [h] at ht
  simp only [gettoken, charAt_of_drop hd, if_neg hd0]
  rcases tokens_cons ds hspace with ⟨rfl, hhead, hcons⟩ | ⟨rfl, hhead, hcons⟩ | ⟨hgt, u, hu, hcons⟩ |
      ⟨hgt, hnone, hword, hcons⟩ <;>
    rw [hcons] at ht <;> obtain ⟨rfl, rfl⟩ := List.cons.inj ht
  · obtain ⟨e, es, rfl⟩ : ∃ e es, ds = e :: es := by
      cases ds with
      | nil => simp at hhead
      | cons e es => exact ⟨e, es, rfl⟩
    obtain rfl : e = ch '>' := by simpa using hhead
    have hlt2 := lt_of_drop hnext
    rw [if_neg (by decide), if_pos rfl, charAt_of_drop hnext, if_pos rfl]
    refine ⟨rfl, ?_, skip_le (by omega), by simp⟩
    rw [toks_skip (by omega), toks_of_drop (drop_succ_of_drop hnext)]
    rfl
  · have hne : charAt line (skip line s + 1) ≠ ch '>' := by
      cases ds with
      | nil =>
        rw [charAt_of_drop_nil hnext]
        decide
      | cons e es =>
        rw [charAt_of_drop hnext]
        simpa using hhead
    rw [if_neg (by decide), if_pos rfl, if_neg hne]
    exact ⟨rfl, by rw [toks_skip (by omega), toks_of_drop hnext], skip_le (by omega), by simp⟩
  · obtain ⟨hin, hcode, -, hnot⟩ := single_eq_some hu
    rw [if_pos hin]
    exact ⟨hcode.symm, by rw [toks_skip (by omega), toks_of_drop hnext], skip_le (by omega),
      fun w hw => absurd hw (hnot w)⟩
  · rw [if_neg (single_eq_none hnone), if_neg hgt]
    obtain ⟨hok, hcontent, hdrop⟩ := advance_word hd hword
    refine ⟨rfl, ?_, skip_le hok.le, ?_⟩
    · rw [toks_skip hok.le, toks_of_drop hdrop]
    · rintro w hw
      obtain rfl := Token.word.inj hw
      exact ⟨hok, hcontent⟩

end Xv6.Sh
