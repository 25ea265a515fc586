import Xv6.Sh.Parser

namespace Xv6.Sh

open Lib List

variable {line : List Byte}

section Strings

def zeroEnds (ws : List Slice) (buf : List Byte) : List Byte := ws.foldl (fun buf w => buf.set w.eq 0) buf

theorem nulterminate_eq (cmd : Cmd Slice) (buf : List Byte) : nulterminate cmd buf = zeroEnds cmd.words buf := by
  induction cmd generalizing buf with
  | exec argv => rfl
  | redir cmd file mode fd ih => rw [nulterminate, ih, Cmd.words, zeroEnds, zeroEnds, foldl_append]; rfl
  | pipe left right ihl ihr => rw [nulterminate, ihr, ihl, Cmd.words, zeroEnds, zeroEnds, zeroEnds, foldl_append]
  | list left right ihl ihr => rw [nulterminate, ihr, ihl, Cmd.words, zeroEnds, zeroEnds, zeroEnds, foldl_append]
  | back cmd ih => exact ih buf

theorem zeroEnds_of_ne (h : ∀ w ∈ ws, w.eq ≠ i) (buf : List Byte) :
    (zeroEnds ws buf)[i]? = buf[i]? := by
  induction ws generalizing buf with
  | nil => rfl
  | cons w ws ih =>
    obtain ⟨hw, hws⟩ := forall_mem_cons.mp h
    exact (ih hws _).trans (getElem?_set_ne hw)

theorem zeroEnds_zero {ws : List Slice} {i : Nat} {buf : List Byte} (h : buf[i]? = some 0) :
    (zeroEnds ws buf)[i]? = some 0 := by
  induction ws generalizing buf with
  | nil => exact h
  | cons w ws ih =>
    refine ih (show (buf.set w.eq 0)[i]? = some 0 from ?_)
    by_cases hw : w.eq = i
    · rw [hw, List.getElem?_set_self (List.getElem?_eq_some_iff.mp h).1]
    · rw [getElem?_set_ne hw, h]

theorem zeroEnds_mem {ws : List Slice} {w : Slice} (h : w ∈ ws) {buf : List Byte} (hlt : w.eq < buf.length) :
    (zeroEnds ws buf)[w.eq]? = some 0 := by
  induction ws generalizing buf with
  | nil => simp at h
  | cons v ws ih =>
    rcases mem_cons.mp h with rfl | h
    · show (zeroEnds ws (buf.set w.eq 0))[w.eq]? = some 0
      exact zeroEnds_zero (List.getElem?_set_self hlt)
    · exact ih h (by rw [length_set]; exact hlt)

theorem takeWhile_eq_take {α : Type} {p : α → Bool} {l : List α} {n : Nat} (h : ∀ i < n, l[i]?.any p = true)
    (hstop : l[n]?.all (fun x => !p x) = true) : l.takeWhile p = l.take n := by
  induction n generalizing l with
  | zero =>
    cases l with
    | nil => rfl
    | cons a l =>
      have ha : p a = false := by simpa using hstop
      rw [takeWhile_cons_of_neg (by simp [ha]), take_zero]
  | succ n ih =>
    cases l with
    | nil => rfl
    | cons a l =>
      have ha : p a = true := h 0 (by omega)
      rw [takeWhile_cons_of_pos ha, take_succ_cons, ih (fun i hi => h (i + 1) (by omega)) hstop]

theorem length_zeroEnds (ws : List Slice) (buf : List Byte) : (zeroEnds ws buf).length = buf.length := by
  induction ws generalizing buf with
  | nil => rfl
  | cons w ws ih => exact (ih _).trans length_set

-- No zero falls into a word, since the byte after a word is in none.
theorem Slice.Ok.apart (hv : Slice.Ok line v) (hw : Slice.Ok line w) : ¬(v.q ≤ w.eq ∧ w.eq < v.eq) := by
  rintro ⟨hq, hi⟩
  rcases hw.stop with hend | hstop
  · have := hv.le
    omega
  · rw [hv.word w.eq hq hi] at hstop
    simp at hstop

theorem cstring_eq_content (h0 : (0 : Byte) ∉ line) {cmd : Cmd Slice} (hok : ∀ w ∈ cmd.words, Slice.Ok line w)
    {w : Slice} (hw : w ∈ cmd.words) : cstring (nulterminate cmd (line ++ [0])) w = content line w := by
  obtain ⟨hlt, hle, -, -⟩ := hok w hw
  rw [nulterminate_eq]
  have hinside : ∀ i, w.q ≤ i → i < w.eq → (zeroEnds cmd.words (line ++ [0]))[i]? = (line)[i]? := by
    intro i hq hi
    rw [zeroEnds_of_ne, getElem?_append_left (by omega)]
    rintro v hv rfl
    exact (hok w hw).apart (hok v hv) ⟨hq, hi⟩
  have htake : ((zeroEnds cmd.words (line ++ [0])).drop w.q).take (w.eq - w.q) = content line w := by
    refine ext_getElem? fun i => ?_
    rw [content]
    by_cases hi : i < w.eq - w.q
    · rw [getElem?_take_of_lt hi, getElem?_take_of_lt hi, getElem?_drop, getElem?_drop,
        hinside _ (by omega) (by omega)]
    · rw [getElem?_take_eq_none (by omega), getElem?_take_eq_none (by omega)]
  rw [cstring, ← htake]
  refine takeWhile_eq_take ?_ ?_
  · intro i hi
    have hget : (line)[w.q + i]? = some (line.get ⟨w.q + i, by omega⟩) := getElem?_eq_getElem _
    rw [getElem?_drop, hinside _ (by omega) (by omega), hget, Option.any_some]
    exact decide_eq_true fun hzero => h0 (hzero ▸ get_mem line _)
  · rw [getElem?_drop, Nat.add_sub_cancel' (Nat.le_of_lt hlt), zeroEnds_mem hw (by simp; omega)]
    rfl

theorem map_congr (t : Cmd α) (h : ∀ w ∈ t.words, f w = g w) : t.map f = t.map g := by
  induction t with
  | exec argv => exact congrArg Cmd.exec (map_congr_left h)
  | redir cmd file mode fd ih =>
    obtain ⟨hcmd, hfile⟩ := forall_mem_append.mp h
    rw [Cmd.map, Cmd.map, ih hcmd, hfile file (by simp)]
  | pipe left right ihl ihr =>
    obtain ⟨hl, hr⟩ := forall_mem_append.mp h
    rw [Cmd.map, Cmd.map, ihl hl, ihr hr]
  | list left right ihl ihr =>
    obtain ⟨hl, hr⟩ := forall_mem_append.mp h
    rw [Cmd.map, Cmd.map, ihl hl, ihr hr]
  | back cmd ih => rw [Cmd.map, Cmd.map, ih h]

end Strings

section Lines

theorem tokens_length_le (l : List Byte) : (tokens l).length ≤ l.length := by
  fun_induction tokens l with
  | case1 => simp
  | case2 c cs _ ih =>
    rw [length_cons]
    omega
  | case3 cs _ h ih =>
    rw [length_drop] at ih
    simp only [length_cons]
    omega
  | case4 cs _ _ ih =>
    simp only [length_cons]
    omega
  | case5 c cs _ _ t _ ih =>
    simp only [length_cons]
    omega
  | case6 c cs _ _ _ ih =>
    have := (dropWhile_sublist isWord (l := cs)).length_le
    simp only [length_cons]
    omega

theorem toks_eq_nil_iff (h0 : (0 : Byte) ∉ line) (hs : s ≤ line.length) :
    toks line s = [] ↔ skip line s = line.length := by
  have hle := skip_le hs
  rcases skip_cases h0 hs with ⟨hd, ht⟩ | ⟨c, cs, hd, -, hspace, ht⟩
  · have hlen := congrArg List.length hd
    simp only [length_drop, length_nil] at hlen
    exact iff_of_true ht (by omega)
  · have hlt := lt_of_drop hd
    exact iff_of_false (ht ▸ tokens_ne_nil cs hspace) (by omega)

theorem parsecmd_eq (line : List Byte) : parsecmd line = (do
    let r ← parseline line (4 * line.length + 5) 0
    if skip line r.2 = line.length then .ok (r.1, nulterminate r.1 (line ++ [0])) else .error .leftovers) := by
  refine congrArg (parseline line (4 * line.length + 5) 0 >>= ·) (funext fun r => ?_)
  exact ite_not ..

theorem parsecmd_eq_ok (h0 : (0 : Byte) ∉ line) :
    parsecmd line = .ok (cmd, buf) ↔
      ∃ s, parseline line (4 * line.length + 5) 0 = .ok (cmd, s) ∧ toks line s = [] ∧
        buf = nulterminate cmd (line ++ [0]) := by
  rw [parsecmd_eq, bind_eq_ok]
  constructor
  · rintro ⟨⟨cmd', s⟩, hline, h⟩
    obtain ⟨us, hreads, -⟩ := (parse_sound h0 _).1 0 _ (Nat.zero_le _) hline
    split_ifs at h with hend
    obtain ⟨rfl, rfl⟩ := Prod.mk.inj (Except.ok.inj h)
    exact ⟨s, hline, (toks_eq_nil_iff h0 hreads.le).mpr hend, rfl⟩
  · rintro ⟨s, hline, hnil, rfl⟩
    obtain ⟨us, hreads, -⟩ := (parse_sound h0 _).1 0 _ (Nat.zero_le _) hline
    exact ⟨(cmd, s), hline, if_pos ((toks_eq_nil_iff h0 hreads.le).mp hnil)⟩

theorem toks_zero (line : List Byte) : toks line 0 = tokens line := rfl

theorem parsecmd_iff_derives (h0 : (0 : Byte) ∉ line) (t : Cmd Word) :
    (∃ cmd buf, parsecmd line = .ok (cmd, buf) ∧ cmd.map (cstring buf) = t) ↔ Derives .line (tokens line) t := by
  constructor
  · rintro ⟨cmd, buf, hparse, rfl⟩
    obtain ⟨s, hline, hnil, rfl⟩ := (parsecmd_eq_ok h0).mp hparse
    obtain ⟨us, hreads, hder, hok⟩ := (parse_sound h0 _).1 0 _ (Nat.zero_le _) hline
    have hall := hreads.toks
    rw [hnil, append_nil, toks_zero] at hall
    rw [hall, map_congr cmd fun w hw => cstring_eq_content h0 hok hw]
    exact hder
  · intro hder
    have hlen := tokens_length_le line
    obtain ⟨cmd, s, hline, hnil, hle, hmap⟩ := parse_complete h0 hder (show _ ≤ 4 * line.length + 5 by
      simp only [reserve]; omega) (Nat.zero_le _) (append_nil _).symm (by rintro t ht; simp at ht)
    obtain ⟨us, hreads, -, hok⟩ := (parse_sound h0 _).1 0 _ (Nat.zero_le _) hline
    refine ⟨cmd, _, (parsecmd_eq_ok h0).mpr ⟨s, hline, hnil, rfl⟩, ?_⟩
    rw [map_congr cmd fun w hw => cstring_eq_content h0 hok hw, hmap]

theorem parsecmd_turns (h0 : (0 : Byte) ∉ line) : parsecmd line ≠ .error .turns := by
  rw [parsecmd_eq]
  rintro h
  have hlen := tokens_length_le line
  rcases bind_eq_error.mp h with h | ⟨r, -, h⟩
  · exact (parse_turns h0 _).1 0 (Nat.zero_le _) (by rw [toks_zero]; omega) h
  · split_ifs at h
    simp at h

end Lines

section Print

def Token.Ok : Token → Prop
  | .word w => w ≠ [] ∧ ∀ b ∈ w, isWord b = true ∧ b ≠ 0
  | _ => True

-- The text of a command: its tokens, with a blank after each.
def render (ts : List Token) : List Byte := ts.flatMap fun t => t.bytes ++ [ch ' ']

def print (t : Cmd Word) : List Byte := render (unparse t)

theorem isSpace_of_isWord (h : isWord b = true) : isSpace b = false := by
  simp only [isWord, Bool.and_eq_true, Bool.not_eq_true'] at h
  exact h.1

theorem single_of_isWord (h : isWord b = true) : single b = none ∧ b ≠ ch '>' := by
  simp only [isWord, symbols, contains_cons, contains_nil, Bool.and_eq_true, Bool.not_eq_true',
    Bool.or_eq_false_iff, beq_eq_false_iff_ne] at h
  obtain ⟨-, hlt, hbar, hgt, hamp, hsemi, hlpar, hrpar, -⟩ := h
  exact ⟨by simp [single, hlt, hbar, hamp, hsemi, hlpar, hrpar], hgt⟩

theorem tokens_bytes (ht : t.Ok) (l : List Byte) : tokens (t.bytes ++ ch ' ' :: l) = t :: tokens l := by
  have hblank : isWord (ch ' ') = false := by decide
  have hspace : tokens (ch ' ' :: l) = tokens l := tokens_space (by decide) l
  cases t with
  | word w =>
    obtain ⟨hne, hw⟩ := ht
    cases w with
    | nil => exact absurd rfl hne
    | cons b w =>
      obtain ⟨hb, hw⟩ := forall_mem_cons.mp hw
      obtain ⟨hsingle, hgt⟩ := single_of_isWord hb.1
      have hall : ∀ c ∈ w, isWord c = true := fun c hc => (hw c hc).1
      rw [Token.bytes, cons_append, tokens, if_neg (by simp [isSpace_of_isWord hb.1]), if_neg hgt, hsingle]
      simp only
      rw [takeWhile_append_of_pos hall, dropWhile_append_of_pos hall,
        takeWhile_cons_of_neg (by simp [hblank]), dropWhile_cons_of_neg (by simp [hblank]), hspace,
        append_nil]
  | _ =>
    simp only [Token.bytes, Token.code, cons_append, nil_append]
    rw [tokens]
    simpa [single, isSpace, whitespace, ch] using hspace

theorem tokens_render (h : ∀ t ∈ ts, t.Ok) : tokens (render ts) = ts := by
  induction ts with
  | nil => rw [render, flatMap_nil, tokens]
  | cons t ts ih =>
    obtain ⟨ht, hts⟩ := forall_mem_cons.mp h
    have := tokens_bytes ht (render ts)
    rw [ih hts] at this
    simpa [render] using this

theorem render_ne_zero (h : ∀ t ∈ ts, t.Ok) : (0 : Byte) ∉ render ts := by
  rintro hmem
  obtain ⟨t, ht, hin⟩ := mem_flatMap.mp hmem
  rcases mem_append.mp hin with hin | hin
  · have hok := h t ht
    cases t with
    | word w => exact (hok.2 0 hin).2 rfl
    | _ => revert hin; decide
  · revert hin
    decide

theorem tokens_ok (h0 : (0 : Byte) ∉ line) : ∀ t ∈ tokens line, t.Ok := by
  fun_induction tokens line with
  | case1 => simp
  | case2 c cs _ ih => exact ih fun h => h0 (mem_cons_of_mem _ h)
  | case3 cs _ _ ih =>
    exact forall_mem_cons.mpr ⟨trivial, ih fun h => h0 (mem_cons_of_mem _ (mem_of_mem_drop h))⟩
  | case4 cs _ _ ih => exact forall_mem_cons.mpr ⟨trivial, ih fun h => h0 (mem_cons_of_mem _ h)⟩
  | case5 c cs _ _ t ht ih =>
    refine forall_mem_cons.mpr ⟨?_, ih fun h => h0 (mem_cons_of_mem _ h)⟩
    cases t with
    | word w => exact absurd rfl ((single_eq_some ht).2.2.2 w)
    | _ => trivial
  | case6 c cs hspace hgt hsingle ih =>
    refine forall_mem_cons.mpr ⟨⟨by simp, ?_⟩, ih fun h => h0 (mem_cons_of_mem _ ?_)⟩
    · rintro b hb
      rcases mem_cons.mp hb with rfl | hb
      · exact ⟨isWord_of_ne hspace hgt hsingle, fun hz => h0 (hz ▸ mem_cons_self)⟩
      · exact ⟨all_eq_true.mp all_takeWhile _ hb,
          fun hz => h0 (hz ▸ mem_cons_of_mem _ ((takeWhile_sublist isWord).mem hb))⟩
    · exact (dropWhile_sublist isWord).mem h

theorem Redirs.words_mem (h : Redirs ts R) :
    ∀ w ∈ R.map (·.file), Token.word w ∈ ts := by
  induction h with
  | nil => simp
  | cons _ _ ih =>
    refine forall_mem_cons.mpr ⟨by simp, fun w hw => ?_⟩
    exact mem_cons_of_mem _ (mem_cons_of_mem _ (ih w hw))

theorem Args.words_mem (h : Args ts ws R) :
    ∀ w ∈ ws ++ R.map (·.file), Token.word w ∈ ts := by
  induction h with
  | nil => simp
  | @cons w rs ts ws R R' hR _ ih =>
    have hrs := hR.words_mem
    intro v hv
    simp only [map_append, mem_append, mem_cons] at hv ih ⊢
    rcases hv with (rfl | hv) | hv | hv
    · exact .inl (.inl rfl)
    · exact .inr (ih v (.inl hv))
    · exact .inl (.inr (hrs v hv))
    · exact .inr (ih v (.inr hv))

theorem Derives.words_mem (h : Derives n ts t) :
    ∀ w ∈ t.words, Token.word w ∈ ts := by
  induction h with
  | line k _ ih =>
    rw [words_backs]
    exact fun w hw => mem_append_left _ (ih w hw)
  | lines k _ _ ih ih' =>
    rw [Cmd.words, words_backs]
    refine forall_mem_append.mpr ⟨fun w hw => mem_append_left _ (ih w hw), fun w hw => ?_⟩
    exact mem_append_right _ (mem_append_right _ (mem_cons_of_mem _ (ih' w hw)))
  | pipe _ ih => exact ih
  | pipes _ _ ih ih' =>
    refine forall_mem_append.mpr ⟨fun w hw => mem_append_left _ (ih w hw), fun w hw => ?_⟩
    exact mem_append_right _ (mem_cons_of_mem _ (ih' w hw))
  | block _ hR ih =>
    rw [words_wrap]
    refine forall_mem_append.mpr ⟨fun w hw => ?_, fun w hw => ?_⟩
    · exact mem_cons_of_mem _ (mem_append_left _ (ih w hw))
    · exact mem_cons_of_mem _ (mem_append_right _ (mem_cons_of_mem _ (hR.words_mem w hw)))
  | simple hR ha _ =>
    rw [words_wrap, map_append]
    intro w hw
    simp only [Cmd.words, mem_append] at hw
    rcases hw with hw | hw | hw
    · exact mem_append_right _ (ha.words_mem w (mem_append_left _ hw))
    · exact mem_append_left _ (hR.words_mem w hw)
    · exact mem_append_right _ (ha.words_mem w (mem_append_right _ hw))

theorem paren_ok (h : ∀ u ∈ us, u.Ok) : ∀ u ∈ Token.lpar :: (us ++ [.rpar]), u.Ok :=
  forall_mem_cons.mpr ⟨trivial, forall_mem_append.mpr ⟨h, by simp [Token.Ok]⟩⟩

theorem unparse_ok (h : ∀ w ∈ t.words, (Token.word w).Ok) : ∀ u ∈ unparse t, u.Ok := by
  induction t with
  | exec argv => exact forall_mem_map.mpr h
  | redir cmd file mode fd ih =>
    obtain ⟨hcmd, hfile⟩ := forall_mem_append.mp h
    refine forall_mem_append.mpr ⟨ih hcmd, ?_⟩
    refine forall_mem_cons.mpr ⟨?_, by simpa using hfile⟩
    unfold redirToken
    split_ifs <;> trivial
  | pipe left right ihl ihr =>
    obtain ⟨hl, hr⟩ := forall_mem_append.mp h
    exact paren_ok (forall_mem_append.mpr ⟨ihl hl, forall_mem_cons.mpr ⟨trivial, ihr hr⟩⟩)
  | list left right ihl ihr =>
    obtain ⟨hl, hr⟩ := forall_mem_append.mp h
    exact paren_ok (forall_mem_append.mpr ⟨ihl hl, forall_mem_cons.mpr ⟨trivial, ihr hr⟩⟩)
  | back cmd ih => exact paren_ok (forall_mem_append.mpr ⟨ih h, by simp [Token.Ok]⟩)

end Print

-- The shell parser accepts the grammar and nothing else, the tree is the derivation, and a
-- printed tree is parsed as itself.
theorem shell_parses_grammar (line : List Byte) (h0 : (0 : Byte) ∉ line) :
    parsecmd line ≠ .error .turns ∧
    (∀ t, (∃ cmd buf, parsecmd line = .ok (cmd, buf) ∧ cmd.map (cstring buf) = t) ↔
      Derives .line (tokens line) t) ∧
    (∀ t, Derives .line (tokens line) t → (0 : Byte) ∉ print t ∧
      ∃ cmd buf, parsecmd (print t) = .ok (cmd, buf) ∧ cmd.map (cstring buf) = t) := by
  refine ⟨parsecmd_turns h0, parsecmd_iff_derives h0, ?_⟩
  intro t ht
  have hok : ∀ u ∈ unparse t, u.Ok := unparse_ok fun w hw => tokens_ok h0 _ (ht.words_mem w hw)
  have hzero : (0 : Byte) ∉ print t := render_ne_zero hok
  refine ⟨hzero, (parsecmd_iff_derives hzero t).mpr ?_⟩
  rw [print, tokens_render hok]
  simpa using Derives.line 0 (.pipe (unparse_derives t ht.ok))

def sampleLine : List Byte := "a >b | (c;d)&".toList.map ch

def sampleTree : Cmd Word :=
  .back (.pipe (.redir (.exec [[ch 'a']]) [ch 'b'] 0x601 1) (.list (.exec [[ch 'c']]) (.exec [[ch 'd']])))

theorem parsecmd_sampleLine :
    ∃ cmd buf, parsecmd sampleLine = .ok (cmd, buf) ∧ cmd.map (cstring buf) = sampleTree := by
  have hparse : (parsecmd sampleLine).toOption.map (fun r => r.1.map (cstring r.2)) = some sampleTree := by
    decide +kernel
  obtain ⟨r, hr, htree⟩ := toOption_map_eq_some.mp hparse
  exact ⟨r.1, r.2, hr, htree⟩

theorem shell_parses_grammar_sample : (0 : Byte) ∉ sampleLine ∧ Derives .line (tokens sampleLine) sampleTree ∧
    ∃ cmd buf, parsecmd (print sampleTree) = .ok (cmd, buf) ∧ cmd.map (cstring buf) = sampleTree := by
  have h0 : (0 : Byte) ∉ sampleLine := by decide
  obtain ⟨-, hiff, hprint⟩ := shell_parses_grammar sampleLine h0
  have hder := (hiff sampleTree).mp parsecmd_sampleLine
  exact ⟨h0, hder, (hprint sampleTree hder).2⟩

-- The words of a command that shares its buffer with the line, and the zeros in it.
structure Terminated (line : List Byte) (cmd : Cmd Slice) (buf : List Byte) : Prop where
  derives : Derives .line (tokens line) (cmd.map (content line))
  word : ∀ w ∈ cmd.words, Slice.Ok line w
  string : ∀ w ∈ cmd.words, cstring buf w = content line w
  apart : ∀ v ∈ cmd.words, ∀ w ∈ cmd.words, ¬(v.q ≤ w.eq ∧ w.eq < v.eq)
  inside : ∀ w ∈ cmd.words, w.eq < (line ++ [0]).length
  length : buf.length = (line ++ [0]).length
  rest : ∀ i, (∀ w ∈ cmd.words, w.eq ≠ i) → buf[i]? = (line ++ [0])[i]?

-- nulterminate() ends every string of the tree where its word ends, and spoils none.
theorem words_survive (h0 : (0 : Byte) ∉ line) {cmd : Cmd Slice} {buf : List Byte}
    (h : parsecmd line = .ok (cmd, buf)) : Terminated line cmd buf := by
  obtain ⟨s, hline, hnil, rfl⟩ := (parsecmd_eq_ok h0).mp h
  obtain ⟨us, hreads, hder, hok⟩ := (parse_sound h0 _).1 0 _ (Nat.zero_le _) hline
  have hall := hreads.toks
  rw [hnil, append_nil, toks_zero] at hall
  refine ⟨hall ▸ hder, hok, fun w hw => cstring_eq_content h0 hok hw, fun v hv w hw => (hok v hv).apart (hok w hw),
    fun w hw => ?_, ?_, fun i hi => ?_⟩
  · have := (hok w hw).le
    simp only [length_append, length_singleton]
    omega
  · rw [nulterminate_eq, length_zeroEnds]
  · rw [nulterminate_eq, zeroEnds_of_ne hi]

theorem words_survive_sample : (0 : Byte) ∉ sampleLine ∧
    ∃ cmd buf, parsecmd sampleLine = .ok (cmd, buf) ∧ Terminated sampleLine cmd buf := by
  obtain ⟨cmd, buf, hparse, -⟩ := parsecmd_sampleLine
  exact ⟨by decide, cmd, buf, hparse, words_survive (by decide) hparse⟩

end Xv6.Sh
