import Xv6.Sh

namespace Xv6.Grep

open List

open Sh (Byte ch)

-- user/grep.c. A char* is the list of the bytes from there on, where reading beyond the end
-- gives the NUL.

mutual

def matchhere (re text : List Byte) : Bool :=
  match re with
  | [] => true
  | c :: re =>
    if c = 0#8 then true
    else if re.headD 0#8 = ch '*' then matchstar c re.tail text
    else if c = ch '$' ∧ re.headD 0#8 = 0#8 then text.headD 0#8 = 0#8
    else if text.headD 0#8 ≠ 0#8 ∧ (c = ch '.' ∨ c = text.headD 0#8) then matchhere re text.tail
    else false
termination_by 2 * (re.length + text.length)
decreasing_by all_goals simp only [length_cons, length_tail]; omega

def matchstar (c : Byte) (re text : List Byte) : Bool :=
  matchhere re text || match text with
    | [] => false
    | t :: text => decide (t ≠ 0#8 ∧ (c = t ∨ c = ch '.')) && matchstar c re text
termination_by 2 * (re.length + text.length) + 1
decreasing_by
  · omega
  · simp only [length_cons]
    omega

end

-- The do loop of match(), which also looks at the empty string.
def matchAny (re : List Byte) : List Byte → Bool
  | [] => matchhere re []
  | t :: text => matchhere re (t :: text) || decide (t ≠ 0#8) && matchAny re text

def matchRe (re text : List Byte) : Bool :=
  if re.headD 0#8 = ch '^' then matchhere re.tail text else matchAny re text

inductive Item where
  | one (c : Byte)
  | star (c : Byte)
  | eot

def items : List Byte → List Item
  | [] => []
  | [c] => if c = ch '$' then [.eot] else [.one c]
  | c :: d :: re => if d = ch '*' then .star c :: items re else .one c :: items (d :: re)

def Admits (c t : Byte) : Prop := c = ch '.' ∨ c = t

-- The word u, with rest after it, belongs to the language of the items.
def Denotes : List Item → List Byte → List Byte → Prop
  | [], u, _ => u = []
  | .one c :: more, u, rest => ∃ t v, u = t :: v ∧ Admits c t ∧ Denotes more v rest
  | .star c :: more, u, rest => ∃ w v, u = w ++ v ∧ (∀ t ∈ w, Admits c t) ∧ Denotes more v rest
  | .eot :: more, u, rest => u ++ rest = [] ∧ Denotes more u rest

-- What is left of a pattern after the mark that ties it to the beginning.
def body (re : List Byte) : List Byte := if re.head? = some (ch '^') then re.tail else re

section Match

variable {re text : List Byte} {c : Byte}

-- Some word at the beginning of the text belongs to the language of the items.
def Begins (is : List Item) (text : List Byte) : Prop := ∃ u rest, text = u ++ rest ∧ Denotes is u rest

theorem begins_nil (text : List Byte) : Begins [] text := ⟨[], text, rfl, rfl⟩

theorem begins_one (is : List Item) : Begins (.one c :: is) text ↔ ∃ t v, text = t :: v ∧ Admits c t ∧ Begins is v := by
  constructor
  · rintro ⟨u, rest, rfl, t, v, rfl, hc, hv⟩
    exact ⟨t, v ++ rest, rfl, hc, v, rest, rfl, hv⟩
  · rintro ⟨t, v, rfl, hc, u, rest, rfl, hu⟩
    exact ⟨t :: u, rest, rfl, t, u, rfl, hc, hu⟩

theorem begins_star (is : List Item) :
    Begins (.star c :: is) text ↔ ∃ w v, text = w ++ v ∧ (∀ t ∈ w, Admits c t) ∧ Begins is v := by
  constructor
  · rintro ⟨u, rest, rfl, w, v, rfl, hw, hv⟩
    exact ⟨w, v ++ rest, append_assoc .., hw, v, rest, rfl, hv⟩
  · rintro ⟨w, v, rfl, hw, u, rest, rfl, hu⟩
    exact ⟨w ++ u, rest, (append_assoc ..).symm, w, u, rfl, hw, hu⟩

theorem begins_eot : Begins [.eot] text ↔ text = [] := by
  constructor
  · rintro ⟨u, rest, rfl, hend, -⟩
    exact hend
  · rintro rfl
    exact ⟨[], [], rfl, rfl, rfl⟩

theorem matchstar_iff (hre : ∀ text, 0#8 ∉ text → (matchhere re text = true ↔ Begins is text))
    (htext : 0#8 ∉ text) : matchstar c re text = true ↔ Begins (.star c :: is) text := by
  induction text with
  | nil =>
    rw [matchstar, Bool.or_false, hre [] htext, begins_star]
    constructor
    · intro h
      exact ⟨[], [], rfl, by simp, h⟩
    · rintro ⟨w, v, heq, -, hv⟩
      rwa [(nil_eq_append_iff.mp heq).2] at hv
  | cons t text ih =>
    rw [mem_cons, not_or] at htext
    rw [matchstar, Bool.or_eq_true, Bool.and_eq_true, decide_eq_true_eq, hre _ (by simp [htext]), ih htext.2,
      begins_star, begins_star]
    constructor
    · rintro (h | ⟨⟨-, ht⟩, w, v, rfl, hw, hv⟩)
      · exact ⟨[], t :: text, rfl, by simp, h⟩
      · exact ⟨t :: w, v, rfl, forall_mem_cons.mpr ⟨ht.symm, hw⟩, hv⟩
    · rintro ⟨w, v, heq, hw, hv⟩
      cases w with
      | nil => exact .inl (heq ▸ hv)
      | cons t' w =>
        cases heq
        obtain ⟨ht, hw⟩ := forall_mem_cons.mp hw
        exact .inr ⟨⟨Ne.symm htext.1, ht.symm⟩, w, v, rfl, hw, hv⟩

theorem matchhere_one (hre : ∀ text, 0#8 ∉ text → (matchhere re text = true ↔ Begins is text))
    (hc : c ≠ 0#8) (hstar : re.headD 0#8 ≠ ch '*') (hend : ¬(c = ch '$' ∧ re.headD 0#8 = 0#8)) (htext : 0#8 ∉ text) :
    matchhere (c :: re) text = true ↔ Begins (.one c :: is) text := by
  rw [begins_one]
  rw [matchhere, if_neg hc, if_neg hstar, if_neg hend]
  cases text with
  | nil => simp
  | cons t text =>
    rw [mem_cons, not_or] at htext
    have ht : t ≠ 0#8 := Ne.symm htext.1
    simp [ht, hre text htext.2, Admits]

theorem matchhere_iff (hre : 0#8 ∉ re) (htext : 0#8 ∉ text) : matchhere re text = true ↔ Begins (items re) text := by
  induction re using items.induct generalizing text with
  | case1 => simp [matchhere, items, begins_nil]
  | case2 =>
    rw [items, if_pos rfl, begins_eot, matchhere, if_neg (by decide), if_neg (by decide), if_pos (by decide),
      decide_eq_true_eq]
    cases text with
    | nil => simp
    | cons t text =>
      have ht : t ≠ 0#8 := fun h => htext (by simp [h])
      simp [ht]
  | case3 c hc =>
    rw [items, if_neg hc]
    refine matchhere_one (fun text _ => ?_) (fun h => hre (by simp [h])) (by decide) (fun h => hc h.1) htext
    simp [matchhere, begins_nil]
  | case4 c re ih =>
    rw [mem_cons, mem_cons, not_or, not_or] at hre
    rw [items, if_pos rfl, matchhere, if_neg (Ne.symm hre.1), if_pos (headD_cons ..)]
    exact matchstar_iff (fun text h => ih hre.2.2 h) htext
  | case5 c d re hd ih =>
    rw [mem_cons, not_or] at hre
    rw [items, if_neg hd]
    refine matchhere_one (fun text h => ih hre.2 h) (Ne.symm hre.1) hd (fun h => hre.2 ?_) htext
    simp only [headD_cons] at h
    simp [h.2]

theorem matchAny_eq (re text : List Byte) : matchAny re text = matchstar (ch '.') re text := by
  induction text with
  | nil => simp [matchAny, matchstar]
  | cons t text ih => simp [matchAny, matchstar, ih]

-- match() finds a word of the pattern's language, at the beginning if it is tied to it.
theorem match_language (hre : 0#8 ∉ re) (htext : 0#8 ∉ text) : matchRe re text = true ↔
    ∃ before word after, text = before ++ word ++ after ∧ (re.head? = some (ch '^') → before = []) ∧
      Denotes (items (body re)) word after := by
  have hhead : re.headD 0#8 = ch '^' ↔ re.head? = some (ch '^') := by
    cases re with
    | nil => simp [show 0#8 ≠ ch '^' by decide]
    | cons c re => simp
  rw [matchRe, body]
  by_cases hmark : re.head? = some (ch '^')
  · rw [if_pos (hhead.mpr hmark), if_pos hmark,
      matchhere_iff (fun h => hre (mem_of_mem_tail h)) htext]
    constructor
    · rintro ⟨u, rest, rfl, hu⟩
      exact ⟨[], u, rest, rfl, fun _ => rfl, hu⟩
    · rintro ⟨before, word, after, rfl, hbefore, hword⟩
      exact ⟨word, after, by rw [hbefore hmark, nil_append], hword⟩
  · rw [if_neg (hhead.not.mpr hmark), if_neg hmark, matchAny_eq,
      matchstar_iff (fun text h => matchhere_iff hre h) htext, begins_star]
    constructor
    · rintro ⟨before, -, rfl, -, word, after, rfl, hword⟩
      exact ⟨before, word, after, (append_assoc ..).symm, fun h => absurd h hmark, hword⟩
    · rintro ⟨before, word, after, rfl, -, hword⟩
      exact ⟨before, word ++ after, append_assoc .., fun _ _ => .inl rfl, word, after, rfl, hword⟩

-- The pattern ^a*b$ and the text aab.
theorem match_language_tied : matchRe ("^a*b$".toList.map ch) ("aab".toList.map ch) = true := by
  rw [match_language (by decide) (by decide)]
  refine ⟨[], [ch 'a', ch 'a', ch 'b'], [], rfl, fun _ => rfl, ?_⟩
  have hitems : items (body ("^a*b$".toList.map ch)) = [.star (ch 'a'), .one (ch 'b'), .eot] := rfl
  rw [hitems]
  exact ⟨[ch 'a', ch 'a'], [ch 'b'], rfl, by simp [Admits], ch 'b', [], rfl, .inr rfl, rfl, rfl⟩

end Match

-- strchr() of user/ulib.c, as the distance to the character.
def strchr : List Byte → Byte → Option Nat
  | [], _ => none
  | x :: s, c => if x = 0#8 then none else if x = c then some 0 else (strchr s c).map (· + 1)

-- sizeof(buf).
def BUFSIZE : Nat := 1024

-- The inner loop of grep(): what it writes, and the bytes from p on.
def scan (pattern p : List Byte) : List Byte × List Byte :=
  match _h : strchr p (ch '\n') with
  | none => ([], p)
  | some q =>
    let (out, rest) := scan pattern (p.drop (q + 1))
    (if matchRe pattern (p.take q) then p.take (q + 1) ++ out else out, rest)
termination_by p.length
decreasing_by
  cases p with
  | nil => simp [strchr] at _h
  | cons x s =>
    simp only [drop_succ_cons, length_drop, length_cons]
    omega

-- read() of up to want bytes: there is no limit to how it splits what is left of the
-- stream, but it returns 0 only for want 0 or at the end.
def readSize (size want : Nat) (stream : List Byte) : Nat := min (max size 1) (min want stream.length)

-- buf holds the m bytes of an unfinished line; split gives the sizes of the reads to come.
def grep (pattern : List Byte) (split : Nat → Nat) (buf stream : List Byte) : List Byte :=
  let n := readSize (split 0) (BUFSIZE - buf.length - 1) stream
  if _h : 0 < n then
    let (out, rest) := scan pattern (buf ++ stream.take n)
    out ++ grep pattern (fun i => split (i + 1)) rest (stream.drop n)
  else []
termination_by stream.length
decreasing_by
  have hn : n ≤ stream.length := by
    simp only [n, readSize]
    omega
  rw [length_drop]
  omega

-- The lines of a stream that end in a newline, without it, and what comes after the last.
def lines : List Byte → List (List Byte) × List Byte
  | [] => ([], [])
  | c :: s =>
    if c = ch '\n' then ([] :: (lines s).1, (lines s).2)
    else match lines s with
      | ([], rest) => ([], c :: rest)
      | (line :: more, rest) => ((c :: line) :: more, rest)

def matching (pattern : List Byte) (ls : List (List Byte)) : List Byte :=
  (ls.filter (matchRe pattern)).flatMap (· ++ [ch '\n'])

-- A line and its newline are in the buffer together.
def Fits (line : List Byte) : Bool := line.length + 1 < BUFSIZE

section Lines

variable {pattern stream s line : List Byte}

theorem lines_append_of_not_mem (h : ch '\n' ∉ line) (t : List Byte) : lines (line ++ t) =
    match lines t with
    | ([], rest) => ([], line ++ rest)
    | (l :: more, rest) => ((line ++ l) :: more, rest) := by
  induction line with
  | nil =>
    rw [nil_append]
    rcases lines t with ⟨_ | ⟨l, more⟩, rest⟩ <;> rfl
  | cons c line ih =>
    rw [mem_cons, not_or] at h
    rw [cons_append, lines, if_neg (Ne.symm h.1), ih h.2]
    rcases lines t with ⟨_ | ⟨l, more⟩, rest⟩ <;> rfl

theorem lines_of_not_mem (h : ch '\n' ∉ s) : lines s = ([], s) := by
  simpa [lines] using lines_append_of_not_mem h []

theorem lines_append_newline (h : ch '\n' ∉ line) (s : List Byte) :
    lines (line ++ ch '\n' :: s) = (line :: (lines s).1, (lines s).2) := by
  simp [lines_append_of_not_mem h, lines]

theorem strchr_none (hnul : 0#8 ∉ s) (h : strchr s c = none) : c ∉ s := by
  induction s with
  | nil => simp
  | cons x s ih =>
    rw [mem_cons, not_or] at hnul
    rw [strchr, if_neg (Ne.symm hnul.1)] at h
    split at h
    · simp at h
    next hx =>
      rw [mem_cons, not_or]
      exact ⟨Ne.symm hx, ih hnul.2 (Option.map_eq_none_iff.mp h)⟩

theorem strchr_some (h : strchr s c = some q) :
    c ∉ s.take q ∧ s = s.take q ++ c :: s.drop (q + 1) ∧ s.take (q + 1) = s.take q ++ [c] := by
  induction s generalizing q with
  | nil => simp [strchr] at h
  | cons x s ih =>
    rw [strchr] at h
    split at h
    · simp at h
    · split at h
      next hx =>
        obtain rfl : 0 = q := by simpa using h
        simp [hx]
      next hx =>
        obtain ⟨q', hq', rfl⟩ := Option.map_eq_some_iff.mp h
        obtain ⟨hmem, hs, htake⟩ := ih hq'
        refine ⟨by simp [hmem, Ne.symm hx], ?_, ?_⟩
        · rw [take_succ_cons, drop_succ_cons, cons_append, ← hs]
        · rw [take_succ_cons, htake, take_succ_cons, cons_append]

theorem scan_eq (hnul : 0#8 ∉ s) : scan pattern s = (matching pattern (lines s).1, (lines s).2) := by
  fun_induction scan pattern s with
  | case1 p h =>
    rw [lines_of_not_mem (strchr_none hnul h)]
    rfl
  | case2 p q h out rest hscan ih =>
    obtain ⟨hmem, hs, htake⟩ := strchr_some h
    rw [hscan] at ih
    have hrest := ih fun h => hnul (mem_of_mem_drop h)
    rw [Prod.mk.injEq] at hrest
    conv_rhs => rw [hs]
    rw [lines_append_newline hmem, hrest.1, hrest.2, htake]
    by_cases hm : matchRe pattern (p.take q) = true
    · simp [matching, hm]
    · simp [matching, hm]

theorem lines_append (s t : List Byte) :
    lines (s ++ t) = ((lines s).1 ++ (lines ((lines s).2 ++ t)).1, (lines ((lines s).2 ++ t)).2) := by
  induction s with
  | nil => simp [lines]
  | cons c s ih =>
    rw [cons_append]
    by_cases hc : c = ch '\n'
    · rw [lines, if_pos hc, lines, if_pos hc, ih]
      rfl
    · rw [lines, if_neg hc, lines.eq_2 c s, if_neg hc, ih]
      rcases lines s with ⟨_ | ⟨l, ls⟩, rest⟩
      · rw [cons_append, lines.eq_2 c, if_neg hc]
        rfl
      · rfl

theorem lines_spec (s : List Byte) :
    (∀ l ∈ (lines s).1, l.length < s.length) ∧ (lines s).2.Sublist s ∧ ch '\n' ∉ (lines s).2 := by
  induction s with
  | nil => simp [lines]
  | cons c s ih =>
    rw [lines]
    split
    · simp only [mem_cons, forall_eq_or_imp, length_cons, length_nil]
      exact ⟨⟨by omega, fun l hl => Nat.lt_succ_of_lt (ih.1 l hl)⟩, ih.2.1.cons c, ih.2.2⟩
    next hc =>
      split
      next rest h =>
        rw [h] at ih
        simpa [Ne.symm hc] using ih.2
      next line more rest h =>
        rw [h] at ih
        simp only [mem_cons, forall_eq_or_imp, length_cons] at ih ⊢
        exact ⟨⟨by omega, fun l hl => Nat.lt_succ_of_lt (ih.1.2 l hl)⟩, ih.2.1.cons c, ih.2.2⟩

theorem matching_append (ls ls' : List (List Byte)) :
    matching pattern (ls ++ ls') = matching pattern ls ++ matching pattern ls' := by
  rw [matching, filter_append, flatMap_append, matching, matching]

-- A line that does not fit stops the loop, since there is no room to read into.
theorem grep_eq (split : Nat → Nat) (buf : List Byte) (hbuf : ch '\n' ∉ buf) (hlen : buf.length < BUFSIZE)
    (hnul : 0#8 ∉ buf) (hnul' : 0#8 ∉ stream) :
    grep pattern split buf stream = matching pattern ((lines (buf ++ stream)).1.takeWhile Fits) := by
  fun_induction grep pattern split buf stream with
  | case1 split buf stream n hn out rest hscan ih =>
    have hle : n ≤ BUFSIZE - buf.length - 1 := by
      simp only [n, readSize]
      omega
    have hcut : buf ++ stream = (buf ++ stream.take n) ++ stream.drop n := by
      rw [append_assoc, take_append_drop]
    have hshort : (buf ++ stream.take n).length < BUFSIZE := by
      rw [length_append, length_take]
      omega
    have hb : 0#8 ∉ buf ++ stream.take n := by
      rw [mem_append, not_or]
      exact ⟨hnul, fun h => hnul' (mem_of_mem_take h)⟩
    rw [hcut]
    generalize buf ++ stream.take n = b at hscan hb hshort ⊢
    rw [scan_eq hb, Prod.mk.injEq] at hscan
    obtain ⟨rfl, rfl⟩ := hscan
    obtain ⟨hlines, hrest, hopen⟩ := lines_spec b
    have hfits : ∀ l ∈ (lines b).1, Fits l = true := fun l hl => by
      have := hlines l hl
      exact decide_eq_true (by omega)
    have hlen' := hrest.length_le
    rw [ih hopen (by omega) (fun h => hb (hrest.subset h)) fun h => hnul' (mem_of_mem_drop h), lines_append b, takeWhile_append_of_pos hfits,
      matching_append]
  | case2 split buf stream n hn =>
    rw [lines_append_of_not_mem hbuf]
    rcases hs : lines stream with ⟨_ | ⟨l, more⟩, rest⟩
    · rfl
    · have hne : stream ≠ [] := by
        rintro rfl
        simp [lines] at hs
      have hfull : buf.length = BUFSIZE - 1 := by
        have := length_pos_iff.mpr hne
        simp only [n, readSize] at hn
        omega
      have hlong : Fits (buf ++ l) = false := by
        rw [Fits, decide_eq_false_iff_not, length_append]
        omega
      rw [takeWhile_cons_of_neg (by simp [hlong])]
      rfl

-- grep() writes the lines that match, up to the first that does not fit in its buffer.
theorem grep_lines (hnul : 0#8 ∉ stream) (split : Nat → Nat) :
    grep pattern split [] stream = matching pattern (lines stream).1 ↔
      ∀ l ∈ (lines stream).1.dropWhile Fits, matchRe pattern l = false := by
  rw [grep_eq _ [] (by simp) (by decide) (by simp) hnul, nil_append]
  have hcut := congrArg (matching pattern) (takeWhile_append_dropWhile (p := Fits) (l := (lines stream).1))
  rw [matching_append] at hcut
  conv_lhs => rw [← hcut]
  rw [self_eq_append_right, matching, flatMap_eq_nil_iff]
  constructor
  · intro h l hl
    by_contra hm
    exact absurd (h l (mem_filter.mpr ⟨hl, by simpa using hm⟩)) (by simp)
  · intro h l hl
    obtain ⟨hl, hm⟩ := mem_filter.mp hl
    simp [h l hl] at hm

theorem matchRe_nil (text : List Byte) : matchRe [] text = true := by
  rw [matchRe, if_neg (by decide)]
  cases text with
  | nil => simp [matchAny, matchhere]
  | cons t text => simp [matchAny, matchhere]

-- A short line, read one byte at a time, and an empty pattern.
theorem grep_lines_split : grep [] (fun _ => 1) [] [ch 'a', ch '\n'] = [ch 'a', ch '\n'] := by
  rw [(grep_lines (by decide) fun _ => 1).mpr (by decide)]
  simp [matching, matchRe_nil, lines, show ch 'a' ≠ ch '\n' by decide]

-- A line of BUFSIZE - 1 characters matches the empty pattern, and is not written.
theorem grep_loses_line : grep [] (fun _ => 1) [] (List.replicate 1023 (ch 'a') ++ [ch '\n']) = [] ∧
    matching [] (lines (List.replicate 1023 (ch 'a') ++ [ch '\n'])).1 = List.replicate 1023 (ch 'a') ++ [ch '\n'] := by
  have hlen : (List.replicate 1023 (ch 'a')).length = 1023 := length_replicate
  have hall : ∀ x ∈ List.replicate 1023 (ch 'a'), x = ch 'a' := fun x hx => eq_of_mem_replicate hx
  generalize List.replicate 1023 (ch 'a') = line at hlen hall
  have hnul : 0#8 ∉ line ++ [ch '\n'] := by
    rw [mem_append, not_or]
    exact ⟨fun h => absurd (hall _ h) (by decide), by decide⟩
  have hlines := lines_append_newline (fun h => absurd (hall _ h) (by decide)) []
  rw [grep_eq _ [] (by simp) (by decide) (by simp) hnul, nil_append, hlines,
    takeWhile_cons_of_neg (by simp [Fits, BUFSIZE, hlen])]
  exact ⟨rfl, by simp [matching, matchRe_nil, lines]⟩

end Lines

end Xv6.Grep
