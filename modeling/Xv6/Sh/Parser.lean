import Xv6.Sh.Grammar

namespace Xv6.Sh

open Lib List

variable {line : List Byte} {s : Nat} {fuel : Nat}

-- From one index to another, the tokens between them read.
structure Reads (line : List Byte) (s s' : Nat) (us : List Token) : Prop where
  toks : toks line s = us ++ toks line s'
  le : s' ≤ line.length

theorem Reads.trans (h : Reads line s₁ s₂ us) (h' : Reads line s₂ s₃ vs) :
    Reads line s₁ s₃ (us ++ vs) :=
  ⟨by rw [h.toks, h'.toks, append_assoc], h'.le⟩

theorem Reads.length_le (h : Reads line s s' us) :
    (Sh.toks line s').length + us.length = (Sh.toks line s).length := by
  rw [h.toks, length_append, Nat.add_comm]

theorem Reads.peek (cs : List Byte) (hs : s ≤ line.length) : Reads line s (peek line s cs).2 [] :=
  ⟨(toks_peek hs).symm, peek_le hs⟩

theorem startsIn_redir (t : Token) : t.startsIn [ch '<', ch '>'] = t.redir.isSome := by
  cases t <;> rfl

theorem startsIn_stop (t : Token) :
    t.startsIn [ch '|', ch ')', ch '&', ch ';'] = true ↔ t ∈ [Token.bar, .rpar, .amp, .semi] := by
  cases t <;> first | decide | simp [Token.startsIn]

def marks : List (Byte × Token) :=
  [(ch '|', .bar), (ch '&', .amp), (ch ';', .semi), (ch '(', .lpar), (ch ')', .rpar)]

theorem startsIn_mark (hm : (c, m) ∈ marks) (t : Token) :
    t.startsIn [c] = true ↔ t = m := by
  simp only [marks, mem_cons, Prod.mk.injEq, not_mem_nil, or_false] at hm
  rcases hm with ⟨rfl, rfl⟩ | ⟨rfl, rfl⟩ | ⟨rfl, rfl⟩ | ⟨rfl, rfl⟩ | ⟨rfl, rfl⟩ <;> cases t <;>
    first | decide | simp [Token.startsIn]

theorem isWord_mark (hm : (c, m) ∈ marks) : ∀ d ∈ [c], isWord d = false := by
  simp only [marks, mem_cons, Prod.mk.injEq, not_mem_nil, or_false] at hm
  rcases hm with ⟨rfl, rfl⟩ | ⟨rfl, rfl⟩ | ⟨rfl, rfl⟩ | ⟨rfl, rfl⟩ | ⟨rfl, rfl⟩ <;> decide

theorem parsebacks_succ (cmd : Cmd Slice) : parsebacks line (fuel + 1) cmd s =
    if (peek line s [ch '&']).1 then parsebacks line fuel (.back cmd) (gettoken line (peek line s [ch '&']).2).s
    else .ok (cmd, (peek line s [ch '&']).2) := by
  rw [parsebacks]

theorem parseline_succ : parseline line (fuel + 1) s = (do
    let r ← parsepipe line fuel s
    let r ← parsebacks line fuel r.1 r.2
    if (peek line r.2 [ch ';']).1 then do
      let u ← parseline line fuel (gettoken line (peek line r.2 [ch ';']).2).s
      .ok (.list r.1 u.1, u.2)
    else .ok (r.1, (peek line r.2 [ch ';']).2)) := by
  rw [parseline]
  rfl

theorem parsepipe_succ : parsepipe line (fuel + 1) s = (do
    let r ← parseexec line fuel s
    if (peek line r.2 [ch '|']).1 then do
      let u ← parsepipe line fuel (gettoken line (peek line r.2 [ch '|']).2).s
      .ok (.pipe r.1 u.1, u.2)
    else .ok (r.1, (peek line r.2 [ch '|']).2)) := by
  rw [parsepipe]
  rfl

theorem parseexec_succ : parseexec line (fuel + 1) s =
    if (peek line s [ch '(']).1 then parseblock line fuel (peek line s [ch '(']).2
    else (do
      let r ← parseredirs line fuel (.exec []) (peek line s [ch '(']).2
      parseargs line fuel r.1 0 r.2) := by
  rw [parseexec]

theorem parseblock_succ : parseblock line (fuel + 1) s =
    if (peek line s [ch '(']).1 then (do
      let r ← parseline line fuel (gettoken line (peek line s [ch '(']).2).s
      if (peek line r.2 [ch ')']).1 then parseredirs line fuel r.1 (gettoken line (peek line r.2 [ch ')']).2).s
      else .error .missingParen)
    else .error .parseblock := by
  rw [parseblock]

section Step

variable (h0 : (0 : Byte) ∉ line) (hs : s ≤ line.length)
include h0 hs

theorem Reads.gettoken (h : Sh.toks line s = t :: ts) :
    Reads line s (gettoken line s).s [t] := by
  obtain ⟨-, hts, hle, -⟩ := gettoken_cons hs h0 h
  exact ⟨by rw [h, hts]; rfl, hle⟩

theorem peek_mark (hm : (c, m) ∈ marks) :
    ((peek line s [c]).1 = true ∧ Reads line s (gettoken line (peek line s [c]).2).s [m]) ∨
    (¬(peek line s [c]).1 = true ∧ (toks line s).head? ≠ some m) := by
  have hpeek : (peek line s [c]).1 = _ := peek_spec h0 hs (isWord_mark hm)
  cases ht : toks line s with
  | nil =>
    rw [ht] at hpeek
    rw [hpeek]
    exact .inr ⟨by simp, by simp⟩
  | cons t ts =>
    rw [ht, head?_cons, Option.any_some] at hpeek
    rw [hpeek, startsIn_mark hm, head?_cons, Ne, Option.some.injEq]
    by_cases hsame : t = m
    · subst t
      have hmove := Reads.peek [c] hs
      exact .inl ⟨rfl, hmove.trans (Reads.gettoken h0 hmove.le (by rw [toks_peek hs, ht]))⟩
    · exact .inr ⟨hsame, hsame⟩

theorem gettoken_cases :
    (toks line s = [] ∧ (gettoken line s).ret = 0 ∧ Reads line s (gettoken line s).s []) ∨
    (∃ w : Slice, { q := (gettoken line s).q, eq := (gettoken line s).eq } = w ∧ (gettoken line s).ret = ch 'a' ∧
      Slice.Ok line w ∧ Reads line s (gettoken line s).s [.word (content line w)]) ∨
    (∃ t ts, toks line s = t :: ts ∧ (∀ w, t ≠ .word w) ∧ (gettoken line s).ret = t.code ∧
      (gettoken line s).ret ≠ 0 ∧ (gettoken line s).ret ≠ ch 'a') := by
  cases ht : toks line s with
  | nil =>
    obtain ⟨hret, hnil, hle⟩ := gettoken_nil hs h0 ht
    exact .inl ⟨rfl, hret, by rw [ht, hnil]; rfl, hle⟩
  | cons t ts =>
    have hreads := Reads.gettoken h0 hs ht
    obtain ⟨hret, -, -, hword⟩ := gettoken_cons hs h0 ht
    rw [hret]
    cases t with
    | word w =>
      obtain ⟨hok, rfl⟩ := hword w rfl
      exact .inr (.inl ⟨_, rfl, rfl, hok, hreads⟩)
    | _ => exact .inr (.inr ⟨_, _, rfl, by simp, rfl, by decide, by decide⟩)

theorem parseredirs_cases (fuel : Nat) (cmd : Cmd Slice) :
    (((toks line s).head?.bind Token.redir = none) ∧ ∃ s', Reads line s s' [] ∧
      parseredirs line (fuel + 1) cmd s = .ok (cmd, s')) ∨
    (∃ op m fd w s', op.redir = some (m, fd) ∧ Slice.Ok line w ∧ Reads line s s' [op, .word (content line w)] ∧
      parseredirs line (fuel + 1) cmd s = parseredirs line fuel (.redir cmd w m fd) s') ∨
    (∃ op ts, op.redir ≠ none ∧ toks line s = op :: ts ∧ (∀ w us, ts ≠ .word w :: us) ∧
      parseredirs line (fuel + 1) cmd s = .error .missingFile) := by
  have hpeek : (peek line s [ch '<', ch '>']).1 = _ := peek_spec h0 hs (by decide)
  have hmove := Reads.peek [ch '<', ch '>'] hs
  rw [parseredirs]
  generalize peek line s [ch '<', ch '>'] = r at hpeek hmove
  obtain ⟨more, s₁⟩ := r
  obtain rfl := hpeek
  cases ht : toks line s with
  | nil => exact .inl ⟨rfl, s₁, hmove, rfl⟩
  | cons op ts =>
    rw [head?_cons, Option.any_some, Option.bind_some]
    have ht₁ : toks line s₁ = op :: ts := by rw [← ht, hmove.toks, nil_append]
    obtain ⟨hret, -, -, -⟩ := gettoken_cons hmove.le h0 ht₁
    have hop := hmove.trans (Reads.gettoken h0 hmove.le ht₁)
    simp only [hret]
    cases hredir : op.redir with
    | none =>
      rw [startsIn_redir, hredir]
      exact .inl ⟨rfl, s₁, hmove, rfl⟩
    | some r =>
      rw [startsIn_redir, hredir, Option.isSome_some, if_pos rfl]
      have hts : toks line (gettoken line s₁).s = ts := by
        have := hop.toks
        rw [ht] at this
        exact ((List.cons.inj this).2).symm
      refine .inr ?_
      rcases gettoken_cases h0 hop.le with ⟨hnil, hzero, -⟩ | ⟨w, hw, ha, hok, hfile⟩ | ⟨t, us, hts', hnot, -, -, hne⟩
      · refine .inr ⟨op, ts, by simp [hredir], rfl, ?_, ?_⟩
        · rintro w us rfl
          rw [hnil] at hts
          simp at hts
        · rw [if_pos (by rw [hzero]; decide)]
      · refine .inl ⟨op, r.1, r.2, w, _, hredir, hok, hop.trans hfile, ?_⟩
        rw [if_neg (not_not.mpr ha), hw]
        cases op <;> simp [Token.redir] at hredir <;> obtain rfl := hredir <;> rfl
      · refine .inr ⟨op, ts, by simp [hredir], rfl, ?_, ?_⟩
        · rintro w vs rfl
          rw [hts'] at hts
          exact hnot w (List.cons.inj hts).1
        · rw [if_pos hne]

theorem parseargs_cases (fuel : Nat) (ret : Cmd Slice) (argc : Nat) :
    ((∃ s', Reads line s s' [] ∧ parseargs line (fuel + 1) ret argc s = .ok (ret, s')) ∧
      ∀ t ∈ (toks line s).head?, t ∈ [Token.bar, .rpar, .amp, .semi]) ∨
    (∃ w s', Slice.Ok line w ∧ Reads line s s' [.word (content line w)] ∧
      parseargs line (fuel + 1) ret argc s =
        if argc + 1 ≥ MAXARGS then .error .tooManyArgs
        else parseredirs line fuel (ret.addArg w) s' >>= fun r => parseargs line fuel r.1 (argc + 1) r.2) ∨
    ((∃ t ts, toks line s = t :: ts ∧ (∀ w, t ≠ .word w) ∧ t ∉ [Token.bar, .rpar, .amp, .semi]) ∧
      parseargs line (fuel + 1) ret argc s = .error .argument) := by
  have hpeek : (peek line s [ch '|', ch ')', ch '&', ch ';']).1 = _ := peek_spec h0 hs (by decide)
  have hmove := Reads.peek [ch '|', ch ')', ch '&', ch ';'] hs
  rw [parseargs]
  generalize peek line s [ch '|', ch ')', ch '&', ch ';'] = r at hpeek hmove
  obtain ⟨stop, s₁⟩ := r
  obtain rfl := hpeek
  have ht₁ : toks line s₁ = toks line s := by rw [hmove.toks, nil_append]
  cases hstart : (toks line s).head?.any (Token.startsIn [ch '|', ch ')', ch '&', ch ';']) with
  | true =>
    refine .inl ⟨⟨s₁, hmove, rfl⟩, ?_⟩
    intro t htoks
    rw [Option.mem_def] at htoks
    rw [htoks, Option.any_some] at hstart
    exact (startsIn_stop t).mp hstart
  | false =>
    simp only [Bool.false_eq_true, if_false]
    rcases gettoken_cases h0 hmove.le with ⟨hnil, hzero, hend⟩ | ⟨w, hw, ha, hok, hword⟩ |
        ⟨t, us, hts, hnot, -, hne0, hnea⟩
    · rw [hzero, if_pos rfl]
      exact .inl ⟨⟨_, hmove.trans hend, rfl⟩, by rw [← ht₁, hnil]; simp⟩
    · refine .inr (.inl ⟨w, _, hok, hmove.trans hword, ?_⟩)
      rw [ha, if_neg (by decide), if_neg (not_not.mpr rfl), hw]
    · rw [if_neg hne0, if_pos hnea]
      rw [ht₁] at hts
      refine .inr (.inr ⟨⟨t, us, hts, hnot, ?_⟩, rfl⟩)
      rw [hts, head?_cons, Option.any_some] at hstart
      rintro hin
      rw [(startsIn_stop t).mpr hin] at hstart
      simp at hstart

theorem parsebacks_cases (fuel : Nat) (cmd : Cmd Slice) :
    (∃ s', Reads line s s' [.amp] ∧ parsebacks line (fuel + 1) cmd s = parsebacks line fuel (.back cmd) s') ∨
    ((toks line s).head? ≠ some .amp ∧ ∃ s', Reads line s s' [] ∧ parsebacks line (fuel + 1) cmd s = .ok (cmd, s')) := by
  rw [parsebacks_succ]
  rcases peek_mark h0 hs (show (ch '&', Token.amp) ∈ marks by decide) with ⟨htrue, hreads⟩ | ⟨hfalse, hne⟩
  · exact .inl ⟨_, hreads, if_pos htrue⟩
  · exact .inr ⟨hne, _, Reads.peek [ch '&'] hs, if_neg hfalse⟩

end Step

def Parsed (line : List Byte) (n : Nonterminal) (s : Nat) (r : Cmd Slice × Nat) : Prop :=
  ∃ us, Reads line s r.2 us ∧ Derives n us (r.1.map (content line)) ∧ ∀ w ∈ r.1.words, Slice.Ok line w

section Sound

variable (h0 : (0 : Byte) ∉ line)
include h0

theorem parseredirs_sound (hs : s ≤ line.length) (h : parseredirs line fuel cmd s = .ok r) :
    ∃ us S, Reads line s r.2 us ∧ r.1 = wrap S cmd ∧ Redirs us (S.map (Redir.map (content line))) ∧
      ∀ x ∈ S, Slice.Ok line x.file := by
  induction fuel generalizing cmd s with
  | zero => simp [parseredirs] at h
  | succ fuel ih =>
    rcases parseredirs_cases h0 hs fuel cmd with ⟨-, s', hreads, heq⟩ | ⟨op, m, fd, w, s', hop, hok, hreads, heq⟩ |
        ⟨op, ts, -, -, -, heq⟩ <;> rw [heq] at h
    · obtain rfl := Except.ok.inj h
      exact ⟨[], [], hreads, rfl, .nil, by simp⟩
    · obtain ⟨us, S, hreads', hwrap, hredirs, hS⟩ := ih hreads.le h
      refine ⟨_, ⟨w, m, fd⟩ :: S, hreads.trans hreads', hwrap, .cons hop hredirs, ?_⟩
      intro x hx
      rcases mem_cons.mp hx with rfl | hx
      · exact hok
      · exact hS x hx
    · simp at h

theorem parseargs_sound (argv : List Slice)
    (hs : s ≤ line.length) (hargc : argv.length < MAXARGS) (h : parseargs line fuel (wrap S (.exec argv)) argv.length s = .ok r) :
    ∃ us ws S', Reads line s r.2 us ∧ r.1 = wrap (S ++ S') (.exec (argv ++ ws)) ∧
      Args us (ws.map (content line)) (S'.map (Redir.map (content line))) ∧ (argv ++ ws).length < MAXARGS ∧
      (∀ w ∈ ws, Slice.Ok line w) ∧ ∀ x ∈ S', Slice.Ok line x.file := by
  induction fuel generalizing argv S s with
  | zero => simp [parseargs] at h
  | succ fuel ih =>
    rcases parseargs_cases h0 hs fuel (wrap S (.exec argv)) argv.length with ⟨⟨s', hreads, heq⟩, -⟩ |
        ⟨w, s', hok, hreads, heq⟩ | ⟨-, heq⟩ <;> rw [heq] at h
    · obtain rfl := Except.ok.inj h
      exact ⟨[], [], [], hreads, by simp, .nil, by simpa using hargc, by simp, by simp⟩
    · split_ifs at h with hmax
      obtain ⟨r₁, hredirs, h⟩ := bind_eq_ok.mp h
      rw [addArg_wrap] at hredirs
      obtain ⟨us, S₁, hreads₁, hwrap, hR, hS₁⟩ := parseredirs_sound h0 hreads.le hredirs
      rw [hwrap, ← wrap_append] at h
      have hlen : (argv ++ [w]).length = argv.length + 1 := by simp
      obtain ⟨vs, ws, S₂, hreads₂, htree, hargs, hlt, hws, hS₂⟩ :=
        ih (S := S ++ S₁) (argv ++ [w]) hreads₁.le (by omega) (by rw [hlen]; exact h)
      refine ⟨_, w :: ws, S₁ ++ S₂, (hreads.trans hreads₁).trans hreads₂, ?_, ?_, by simpa using hlt, ?_, ?_⟩
      · rw [htree, append_assoc, append_assoc]
        rfl
      · rw [map_append]
        exact .cons hR hargs
      · exact forall_mem_cons.mpr ⟨hok, hws⟩
      · exact forall_mem_append.mpr ⟨hS₁, hS₂⟩
    · simp at h

theorem parsebacks_sound (hs : s ≤ line.length) (h : parsebacks line fuel cmd s = .ok r) :
    ∃ k, Reads line s r.2 (List.replicate k .amp) ∧ r.1 = Cmd.back^[k] cmd := by
  induction fuel generalizing cmd s with
  | zero => simp [parsebacks] at h
  | succ fuel ih =>
    rcases parsebacks_cases h0 hs fuel cmd with ⟨s', hreads, heq⟩ | ⟨-, s', hreads, heq⟩ <;> rw [heq] at h
    · obtain ⟨k, hreads', htree⟩ := ih hreads.le h
      exact ⟨k + 1, hreads.trans hreads', htree⟩
    · obtain rfl := Except.ok.inj h
      exact ⟨0, hreads, rfl⟩

theorem parse_sound (fuel : Nat) :
    (∀ s r, s ≤ line.length → parseline line fuel s = .ok r → Parsed line .line s r) ∧
    (∀ s r, s ≤ line.length → parsepipe line fuel s = .ok r → Parsed line .pipe s r) ∧
    (∀ s r, s ≤ line.length → parseexec line fuel s = .ok r → Parsed line .exec s r) ∧
    (∀ s r, s ≤ line.length → parseblock line fuel s = .ok r → Parsed line .exec s r) := by
  induction fuel with
  | zero => simp [parseline, parsepipe, parseexec, parseblock]
  | succ fuel ih =>
    obtain ⟨ihline, ihpipe, ihexec, ihblock⟩ := ih
    refine ⟨?_, ?_, ?_, ?_⟩
    · intro s r hs h
      rw [parseline_succ] at h
      obtain ⟨⟨cmd, s₁⟩, hpipe, h⟩ := bind_eq_ok.mp h
      obtain ⟨⟨cmd₂, s₂⟩, hbacks, h⟩ := bind_eq_ok.mp h
      obtain ⟨us, hreads, hder, hwords⟩ := ihpipe s _ hs hpipe
      obtain ⟨k, hreads₂, rfl⟩ := parsebacks_sound h0 hreads.le hbacks
      rcases peek_mark h0 hreads₂.le (show (ch ';', Token.semi) ∈ marks by decide) with ⟨htrue, hsemi⟩ | ⟨hfalse, -⟩
      · rw [if_pos htrue] at h
        obtain ⟨⟨right, s₃⟩, hright, h⟩ := bind_eq_ok.mp h
        obtain rfl := Except.ok.inj h
        obtain ⟨vs, hreads₃, hder₃, hwords₃⟩ := ihline _ _ hsemi.le hright
        refine ⟨_, hreads.trans (hreads₂.trans (hsemi.trans hreads₃)), ?_, ?_⟩
        · rw [Cmd.map, map_backs]
          exact .lines k hder hder₃
        · rw [Cmd.words, words_backs]
          exact forall_mem_append.mpr ⟨hwords, hwords₃⟩
      · rw [if_neg hfalse] at h
        obtain rfl := Except.ok.inj h
        refine ⟨_, (hreads.trans hreads₂).trans (.peek [ch ';'] hreads₂.le), ?_, ?_⟩
        · rw [map_backs, append_nil]
          exact .line k hder
        · rw [words_backs]
          exact hwords
    · intro s r hs h
      rw [parsepipe_succ] at h
      obtain ⟨⟨cmd, s₁⟩, hexec, h⟩ := bind_eq_ok.mp h
      obtain ⟨us, hreads, hder, hwords⟩ := ihexec s _ hs hexec
      rcases peek_mark h0 hreads.le (show (ch '|', Token.bar) ∈ marks by decide) with ⟨htrue, hbar⟩ | ⟨hfalse, -⟩
      · rw [if_pos htrue] at h
        obtain ⟨⟨right, s₃⟩, hright, h⟩ := bind_eq_ok.mp h
        obtain rfl := Except.ok.inj h
        obtain ⟨vs, hreads₃, hder₃, hwords₃⟩ := ihpipe _ _ hbar.le hright
        exact ⟨_, hreads.trans (hbar.trans hreads₃), .pipes hder hder₃,
          forall_mem_append.mpr ⟨hwords, hwords₃⟩⟩
      · rw [if_neg hfalse] at h
        obtain rfl := Except.ok.inj h
        refine ⟨_, hreads.trans (.peek [ch '|'] hreads.le), ?_, hwords⟩
        rw [append_nil]
        exact .pipe hder
    · intro s r hs h
      rw [parseexec_succ] at h
      rcases peek_mark h0 hs (show (ch '(', Token.lpar) ∈ marks by decide) with ⟨htrue, -⟩ | ⟨hfalse, -⟩
      · rw [if_pos htrue] at h
        obtain ⟨us, hreads, hder⟩ := ihblock _ _ (Reads.peek [ch '('] hs).le h
        exact ⟨us, (Reads.peek [ch '('] hs).trans hreads, hder⟩
      · rw [if_neg hfalse] at h
        have hmove := Reads.peek [ch '('] hs
        obtain ⟨⟨ret, s₁⟩, hredirs, h⟩ := bind_eq_ok.mp h
        obtain ⟨us, S, hreads, rfl, hR, hS⟩ := parseredirs_sound h0 hmove.le hredirs
        obtain ⟨vs, ws, S', hreads', htree, hargs, hlt, hws, hS'⟩ :=
          parseargs_sound h0 [] hreads.le (by decide) h
        refine ⟨_, hmove.trans (hreads.trans hreads'), ?_, ?_⟩
        · rw [htree, map_wrap, map_append, nil_append]
          exact .simple hR hargs (by simpa using hlt)
        · rw [htree, words_wrap, map_append]
          refine forall_mem_append.mpr ⟨by simpa [Cmd.words] using hws, forall_mem_append.mpr ⟨?_, ?_⟩⟩
          · exact forall_mem_map.mpr hS
          · exact forall_mem_map.mpr hS'
    · intro s r hs h
      rw [parseblock_succ] at h
      rcases peek_mark h0 hs (show (ch '(', Token.lpar) ∈ marks by decide) with ⟨htrue, hlpar⟩ | ⟨hfalse, -⟩
      · rw [if_pos htrue] at h
        obtain ⟨⟨cmd, s₁⟩, hline, h⟩ := bind_eq_ok.mp h
        obtain ⟨us, hreads, hder, hwords⟩ := ihline _ _ hlpar.le hline
        rcases peek_mark h0 hreads.le (show (ch ')', Token.rpar) ∈ marks by decide) with ⟨htrue, hrpar⟩ | ⟨hfalse, -⟩
        · rw [if_pos htrue] at h
          obtain ⟨vs, S, hreads', htree, hR, hS⟩ := parseredirs_sound h0 hrpar.le h
          refine ⟨_, hlpar.trans (hreads.trans (hrpar.trans hreads')), ?_, ?_⟩
          · rw [htree, map_wrap]
            exact .block hder hR
          · rw [htree, words_wrap]
            exact forall_mem_append.mpr ⟨hwords, forall_mem_map.mpr hS⟩
        · simp [if_neg hfalse] at h
      · simp [if_neg hfalse] at h

end Sound

section Complete

variable (h0 : (0 : Byte) ∉ line)
include h0

theorem parseredirs_complete (h : Redirs us R)
    (hfollow : rest.head?.bind Token.redir = none) (cmd : Cmd Slice) (hfuel : us.length < fuel)
    (hs : s ≤ line.length) (htoks : toks line s = us ++ rest) :
    ∃ S s', parseredirs line fuel cmd s = .ok (wrap S cmd, s') ∧ toks line s' = rest ∧ s' ≤ line.length ∧
      S.map (Redir.map (content line)) = R := by
  induction h generalizing fuel cmd s with
  | nil =>
    obtain ⟨fuel, rfl⟩ := Nat.exists_eq_add_one.mpr hfuel
    rw [nil_append] at htoks
    rcases parseredirs_cases h0 hs fuel cmd with ⟨-, s', hreads, heq⟩ | ⟨op, m, fd, w, s', hop, -, hreads, -⟩ |
        ⟨op, ts, hop, htoks', -⟩
    · exact ⟨[], s', heq, by rw [← htoks, hreads.toks]; rfl, hreads.le, rfl⟩
    · rw [← htoks, hreads.toks] at hfollow
      simp [hop] at hfollow
    · rw [← htoks, htoks'] at hfollow
      exact absurd hfollow hop
  | @cons op m fd f ts R hop hR ih =>
    obtain ⟨fuel, rfl⟩ := Nat.exists_eq_add_one.mpr (Nat.zero_lt_of_lt hfuel)
    simp only [length_cons] at hfuel
    rcases parseredirs_cases h0 hs fuel cmd with ⟨hnone, -⟩ | ⟨op', m', fd', w, s', hop', -, hreads, heq⟩ |
        ⟨op', ts', -, htoks', hword, -⟩
    · rw [htoks] at hnone
      simp [hop] at hnone
    · have hsame := hreads.toks
      rw [htoks] at hsame
      simp only [cons_append, nil_append, List.cons.injEq, Token.word.injEq] at hsame
      obtain ⟨rfl, rfl, hrest⟩ := hsame
      obtain ⟨rfl, rfl⟩ := Prod.mk.inj (Option.some.inj (hop'.symm.trans hop))
      have hlt : ts.length < fuel := by omega
      obtain ⟨S, s₂, hparse, hend, hle, rfl⟩ := ih _ hlt hreads.le hrest.symm
      exact ⟨⟨w, m', fd'⟩ :: S, s₂, heq.trans hparse, hend, hle, rfl⟩
    · rw [htoks] at htoks'
      exact absurd (List.cons.inj htoks').2.symm (hword _ _)

def follow : Nonterminal → List Token
  | .line => [.rpar]
  | .pipe => [.rpar, .amp, .semi]
  | .exec => [.rpar, .amp, .semi, .bar]

def Follows (n : Nonterminal) (rest : List Token) : Prop := ∀ t ∈ rest.head?, t ∈ follow n

omit h0 in
theorem Follows.redir (h : Follows n rest) :
    rest.head?.bind Token.redir = none := by
  cases ht : rest.head? with
  | none => rfl
  | some t =>
    have hin := h t ht
    rw [Option.bind_some]
    cases n <;> simp only [follow, mem_cons, not_mem_nil, or_false] at hin <;>
      rcases hin with rfl | rfl | rfl | rfl <;> rfl

omit h0 in
theorem Args.head_redir (h : Args us ws R)
    (hrest : Follows .exec rest) : (us ++ rest).head?.bind Token.redir = none := by
  cases h with
  | nil => exact hrest.redir
  | cons => rfl

theorem parseargs_complete (h : Args us ws R)
    (hfollow : Follows .exec rest) (S : List (Redir Slice)) (argv : List Slice) (hfuel : us.length < fuel)
    (hs : s ≤ line.length) (htoks : toks line s = us ++ rest) (hlen : argv.length + ws.length < MAXARGS) :
    ∃ vs S' s', parseargs line fuel (wrap S (.exec argv)) argv.length s = .ok (wrap (S ++ S') (.exec (argv ++ vs)), s') ∧
      toks line s' = rest ∧ s' ≤ line.length ∧ vs.map (content line) = ws ∧
      S'.map (Redir.map (content line)) = R := by
  induction h generalizing fuel S argv s with
  | nil =>
    obtain ⟨fuel, rfl⟩ := Nat.exists_eq_add_one.mpr hfuel
    rw [nil_append] at htoks
    rcases parseargs_cases h0 hs fuel (wrap S (.exec argv)) argv.length with ⟨⟨s', hreads, heq⟩, -⟩ |
        ⟨w, s', -, hreads, -⟩ | ⟨⟨t, ts, htoks', -, hnot⟩, -⟩
    · exact ⟨[], [], s', by simpa using heq, by rw [← htoks, hreads.toks]; rfl, hreads.le, rfl, rfl⟩
    · rw [hreads.toks] at htoks
      have := hfollow _ (by rw [← htoks]; rfl)
      simp [follow] at this
    · rw [htoks'] at htoks
      have := hfollow t (by rw [← htoks]; rfl)
      exact absurd (by simpa [follow, or_comm, or_left_comm] using this) hnot
  | @cons w rs ts ws R R' hR ha ih =>
    obtain ⟨fuel, rfl⟩ := Nat.exists_eq_add_one.mpr (Nat.zero_lt_of_lt hfuel)
    simp only [cons_append, length_cons, length_append] at hfuel hlen
    rcases parseargs_cases h0 hs fuel (wrap S (.exec argv)) argv.length with ⟨-, hin⟩ |
        ⟨v, s', -, hreads, heq⟩ | ⟨⟨t, ts', htoks', hnot, -⟩, -⟩
    · rw [htoks] at hin
      have := hin (.word w) rfl
      simp at this
    · have hsame := hreads.toks
      rw [htoks] at hsame
      simp only [cons_append, nil_append, List.cons.injEq, Token.word.injEq, append_assoc] at hsame
      obtain ⟨rfl, hrest⟩ := hsame
      rw [if_neg (by omega), addArg_wrap] at heq
      obtain ⟨S₁, s₁, hredirs, htoks₁, hle₁, rfl⟩ :=
        parseredirs_complete h0 hR (ha.head_redir hfollow) _ (show rs.length < fuel by omega) hreads.le hrest.symm
      rw [hredirs, ok_bind, ← wrap_append] at heq
      obtain ⟨vs, S₂, s₂, hargs, hend, hle, rfl, rfl⟩ :=
        ih (S ++ S₁) (argv ++ [v]) (show ts.length < fuel by omega) hle₁ htoks₁ (by simp; omega)
      rw [length_append] at hargs
      refine ⟨v :: vs, S₁ ++ S₂, s₂, heq.trans ?_, hend, hle, rfl, map_append⟩
      simpa [Cmd.addArg, append_assoc] using hargs
    · rw [htoks] at htoks'
      exact absurd (List.cons.inj htoks').1.symm (hnot w)

theorem parsebacks_complete (k : Nat) (hfollow : rest.head? ≠ some .amp) (cmd : Cmd Slice)
    (hfuel : k < fuel) (hs : s ≤ line.length) (htoks : toks line s = List.replicate k .amp ++ rest) :
    ∃ s', parsebacks line fuel cmd s = .ok (Cmd.back^[k] cmd, s') ∧ toks line s' = rest ∧ s' ≤ line.length := by
  induction k generalizing fuel cmd s with
  | zero =>
    obtain ⟨fuel, rfl⟩ := Nat.exists_eq_add_one.mpr hfuel
    rw [replicate_zero, nil_append] at htoks
    rcases parsebacks_cases h0 hs fuel cmd with ⟨s', hreads, -⟩ | ⟨-, s', hreads, heq⟩
    · rw [hreads.toks] at htoks
      exact absurd (by rw [← htoks]; rfl) hfollow
    · exact ⟨s', heq, by rw [← htoks, hreads.toks]; rfl, hreads.le⟩
  | succ k ih =>
    obtain ⟨fuel, rfl⟩ := Nat.exists_eq_add_one.mpr (Nat.zero_lt_of_lt hfuel)
    rw [replicate_succ, cons_append] at htoks
    rcases parsebacks_cases h0 hs fuel cmd with ⟨s', hreads, heq⟩ | ⟨hne, -⟩
    · have hrest := hreads.toks
      rw [htoks] at hrest
      obtain ⟨s₂, hparse, hend⟩ := ih (.back cmd) (show k < fuel by omega) hreads.le
        (List.cons.inj hrest).2.symm
      exact ⟨s₂, heq.trans hparse, hend⟩
    · rw [htoks] at hne
      exact absurd rfl hne

theorem peek_take (hs : s ≤ line.length) (hm : (c, m) ∈ marks) (h : toks line s = m :: ts) :
    (peek line s [c]).1 = true ∧ toks line (gettoken line (peek line s [c]).2).s = ts ∧
    (gettoken line (peek line s [c]).2).s ≤ line.length := by
  rcases peek_mark h0 hs hm with ⟨htrue, hreads⟩ | ⟨-, hne⟩
  · have htoks := hreads.toks
    rw [h] at htoks
    exact ⟨htrue, (List.cons.inj htoks).2.symm, hreads.le⟩
  · rw [h] at hne
    exact absurd rfl hne

theorem peek_pass (hs : s ≤ line.length) (hm : (c, m) ∈ marks)
    (h : (toks line s).head? ≠ some m) : ¬(peek line s [c]).1 = true := by
  rcases peek_mark h0 hs hm with ⟨-, hreads⟩ | ⟨hfalse, -⟩
  · rw [hreads.toks] at h
    exact absurd rfl h
  · exact hfalse

-- The parse of a nonterminal, and the turns that it needs beyond four for each token.
def parse (line : List Byte) : Nonterminal → Nat → Nat → Except Panic (Cmd Slice × Nat)
  | .line => parseline line
  | .pipe => parsepipe line
  | .exec => parseexec line

def reserve : Nonterminal → Nat
  | .line => 4
  | .pipe => 3
  | .exec => 2

omit h0 in
theorem simple_head (hR : Redirs rs R)
    (ha : Args ts ws R') (hfollow : Follows .exec rest) : (rs ++ (ts ++ rest)).head? ≠ some .lpar := by
  cases hR with
  | nil =>
    cases ha with
    | nil => exact fun hhead => absurd (hfollow _ hhead) (by simp [follow])
    | cons => simp
  | cons hop =>
    rintro hhead
    obtain rfl := Option.some.inj hhead
    simp [Token.redir] at hop

theorem parse_complete (h : Derives n us t)
    (hfuel : 4 * us.length + reserve n ≤ fuel) (hs : s ≤ line.length) (htoks : toks line s = us ++ rest)
    (hfollow : Follows n rest) :
    ∃ cmd s', parse line n fuel s = .ok (cmd, s') ∧ toks line s' = rest ∧ s' ≤ line.length ∧
      cmd.map (content line) = t := by
  induction h generalizing fuel s rest with
  | @line ts t k _ ih =>
    obtain ⟨fuel, rfl⟩ := Nat.exists_eq_add_one.mpr (show 0 < fuel by simp only [reserve] at hfuel; omega)
    simp only [reserve, length_append, length_replicate] at hfuel ih
    rw [append_assoc] at htoks
    have hamp : rest.head? ≠ some .amp := fun hhead => absurd (hfollow _ hhead) (by simp [follow])
    have hsemi : rest.head? ≠ some .semi := fun hhead => absurd (hfollow _ hhead) (by simp [follow])
    have hafter : Follows .pipe (List.replicate k .amp ++ rest) := by
      cases k with
      | zero => exact fun t ht => mem_cons.mpr (.inl (by simpa [follow] using hfollow t ht))
      | succ k =>
        rintro t ht
        obtain rfl := Option.some.inj ht
        simp [follow]
    obtain ⟨cmd, s₁, hpipe, htoks₁, hle₁, rfl⟩ := ih (show 4 * ts.length + 3 ≤ fuel by omega) hs htoks hafter
    obtain ⟨s₂, hbacks, htoks₂, hle₂⟩ := parsebacks_complete h0 k hamp cmd (show k < fuel by omega) hle₁ htoks₁
    have hpeek := peek_pass h0 hle₂ (show (ch ';', Token.semi) ∈ marks by decide) (by rw [htoks₂]; exact hsemi)
    simp only [parse] at hpipe ⊢
    refine ⟨_, _, ?_, ?_, (Reads.peek [ch ';'] hle₂).le, map_backs k⟩
    · rw [parseline_succ, hpipe, ok_bind, hbacks, ok_bind, if_neg hpeek]
    · rw [toks_peek hle₂, htoks₂]
  | @lines ts us t u k _ _ ih ih' =>
    obtain ⟨fuel, rfl⟩ := Nat.exists_eq_add_one.mpr (show 0 < fuel by simp only [reserve] at hfuel; omega)
    simp only [reserve, length_append, length_replicate, length_cons] at hfuel ih ih'
    simp only [append_assoc, cons_append] at htoks
    have hafter : Follows .pipe (List.replicate k .amp ++ .semi :: (us ++ rest)) := by
      cases k <;> rintro t ht <;> obtain rfl := Option.some.inj ht <;> simp [follow]
    obtain ⟨cmd, s₁, hpipe, htoks₁, hle₁, rfl⟩ := ih (show 4 * ts.length + 3 ≤ fuel by omega) hs htoks hafter
    obtain ⟨s₂, hbacks, htoks₂, hle₂⟩ :=
      parsebacks_complete h0 k (by simp) cmd (show k < fuel by omega) hle₁ htoks₁
    obtain ⟨hpeek, htoks₃, hle₃⟩ := peek_take h0 hle₂ (show (ch ';', Token.semi) ∈ marks by decide) htoks₂
    obtain ⟨right, s₄, hline, htoks₄, hle₄, rfl⟩ :=
      ih' (show 4 * us.length + 4 ≤ fuel by omega) hle₃ htoks₃ hfollow
    simp only [parse] at hpipe hline ⊢
    refine ⟨.list (Cmd.back^[k] cmd) right, s₄, ?_, htoks₄, hle₄, by rw [Cmd.map, map_backs]⟩
    rw [parseline_succ, hpipe, ok_bind, hbacks, ok_bind, if_pos hpeek, hline, ok_bind]
  | @pipe ts t _ ih =>
    obtain ⟨fuel, rfl⟩ := Nat.exists_eq_add_one.mpr (show 0 < fuel by simp only [reserve] at hfuel; omega)
    simp only [reserve] at hfuel ih
    have hbar : rest.head? ≠ some .bar := fun hhead => absurd (hfollow _ hhead) (by simp [follow])
    have hafter : Follows .exec rest := fun t ht => by
      have := hfollow t ht
      simp only [follow, mem_cons, not_mem_nil, or_false] at this ⊢
      tauto
    obtain ⟨cmd, s₁, hexec, htoks₁, hle₁, rfl⟩ := ih (show 4 * ts.length + 2 ≤ fuel by omega) hs htoks hafter
    have hpeek := peek_pass h0 hle₁ (show (ch '|', Token.bar) ∈ marks by decide) (by rw [htoks₁]; exact hbar)
    simp only [parse] at hexec ⊢
    refine ⟨cmd, _, ?_, ?_, (Reads.peek [ch '|'] hle₁).le, rfl⟩
    · rw [parsepipe_succ, hexec, ok_bind, if_neg hpeek]
    · rw [toks_peek hle₁, htoks₁]
  | @pipes ts us t u _ _ ih ih' =>
    obtain ⟨fuel, rfl⟩ := Nat.exists_eq_add_one.mpr (show 0 < fuel by simp only [reserve] at hfuel; omega)
    simp only [reserve, length_append, length_cons] at hfuel ih ih'
    simp only [append_assoc, cons_append] at htoks
    obtain ⟨cmd, s₁, hexec, htoks₁, hle₁, rfl⟩ :=
      ih (show 4 * ts.length + 2 ≤ fuel by omega) hs htoks (by rintro t ht; obtain rfl := Option.some.inj ht; simp [follow])
    obtain ⟨hpeek, htoks₂, hle₂⟩ := peek_take h0 hle₁ (show (ch '|', Token.bar) ∈ marks by decide) htoks₁
    obtain ⟨right, s₃, hpipe, htoks₃, hle₃, rfl⟩ :=
      ih' (show 4 * us.length + 3 ≤ fuel by omega) hle₂ htoks₂ hfollow
    simp only [parse] at hexec hpipe ⊢
    refine ⟨.pipe cmd right, s₃, ?_, htoks₃, hle₃, rfl⟩
    rw [parsepipe_succ, hexec, ok_bind, if_pos hpeek, hpipe, ok_bind]
  | @block ts rs t R _ hR ih =>
    simp only [reserve, length_append, length_cons] at hfuel ih
    obtain ⟨fuel, rfl⟩ : ∃ f, fuel = f + 1 + 1 := ⟨fuel - 2, by omega⟩
    simp only [append_assoc, cons_append] at htoks
    have hmove := Reads.peek [ch '('] hs
    have hsame : toks line (peek line s [ch '(']).2 = _ := (toks_peek hs).trans htoks
    obtain ⟨hpeek, -⟩ := peek_take h0 hs (show (ch '(', Token.lpar) ∈ marks by decide) htoks
    obtain ⟨hpeek₁, htoks₁, hle₁⟩ := peek_take h0 hmove.le (show (ch '(', Token.lpar) ∈ marks by decide) hsame
    obtain ⟨cmd, s₂, hline, htoks₂, hle₂, rfl⟩ := ih (show 4 * ts.length + 4 ≤ fuel by omega) hle₁ htoks₁
      (by rintro t ht; obtain rfl := Option.some.inj ht; simp [follow])
    obtain ⟨hpeek₃, htoks₃, hle₃⟩ := peek_take h0 hle₂ (show (ch ')', Token.rpar) ∈ marks by decide) htoks₂
    obtain ⟨S, s₄, hredirs, htoks₄, hle₄, rfl⟩ :=
      parseredirs_complete h0 hR hfollow.redir cmd (show rs.length < fuel by omega) hle₃ htoks₃
    simp only [parse] at hline ⊢
    refine ⟨_, _, ?_, htoks₄, hle₄, map_wrap⟩
    rw [parseexec_succ, if_pos hpeek, parseblock_succ, if_pos hpeek₁, hline, ok_bind, if_pos hpeek₃]
    exact hredirs
  | @simple rs ts ws R R' hR ha hlen =>
    simp only [reserve, length_append] at hfuel
    obtain ⟨fuel, rfl⟩ : ∃ f, fuel = f + 1 := ⟨fuel - 1, by omega⟩
    rw [append_assoc] at htoks
    have hmove := Reads.peek [ch '('] hs
    have hsame : toks line (peek line s [ch '(']).2 = _ := (toks_peek hs).trans htoks
    have hlpar : (toks line s).head? ≠ some .lpar := by
      rw [htoks]
      exact simple_head hR ha hfollow
    have hpeek := peek_pass h0 hs (show (ch '(', Token.lpar) ∈ marks by decide) hlpar
    obtain ⟨S, s₁, hredirs, htoks₁, hle₁, rfl⟩ :=
      parseredirs_complete h0 hR (ha.head_redir hfollow) (.exec []) (show rs.length < fuel by omega) hmove.le hsame
    obtain ⟨vs, S', s₂, hargs, htoks₂, hle₂, rfl, rfl⟩ := parseargs_complete h0 ha hfollow S []
      (show ts.length < fuel by omega) hle₁ htoks₁ (by simpa using hlen)
    simp only [parse]
    refine ⟨wrap (S ++ S') (.exec vs), s₂, ?_, htoks₂, hle₂, ?_⟩
    · rw [parseexec_succ, if_neg hpeek, hredirs, ok_bind]
      exact hargs
    · rw [map_wrap, map_append]
      rfl

end Complete

section Turns

variable (h0 : (0 : Byte) ∉ line)
include h0

section

variable (hs : s ≤ line.length) (hfuel : (toks line s).length < fuel)
include hs hfuel

theorem parseredirs_turns : parseredirs line fuel cmd s ≠ .error .turns := by
  induction fuel generalizing cmd s with
  | zero => omega
  | succ fuel ih =>
    rcases parseredirs_cases h0 hs fuel cmd with ⟨-, s', -, heq⟩ | ⟨op, m, fd, w, s', -, -, hreads, heq⟩ |
        ⟨op, ts, -, -, -, heq⟩ <;> rw [heq]
    · simp
    · have hlen := hreads.length_le
      simp only [length_cons, length_nil] at hlen
      exact ih hreads.le (by omega)
    · simp

theorem parseargs_turns : parseargs line fuel ret argc s ≠ .error .turns := by
  induction fuel generalizing ret argc s with
  | zero => omega
  | succ fuel ih =>
    rcases parseargs_cases h0 hs fuel ret argc with ⟨⟨s', -, heq⟩, -⟩ | ⟨w, s', -, hreads, heq⟩ | ⟨-, heq⟩ <;> rw [heq]
    · simp
    · have hlen := hreads.length_le
      simp only [length_cons, length_nil] at hlen
      split_ifs
      · simp
      · rintro h
        rcases bind_eq_error.mp h with h | ⟨r, hr, h⟩
        · exact parseredirs_turns h0 hreads.le (by omega) h
        · obtain ⟨us, -, hreads', -⟩ := parseredirs_sound h0 hreads.le hr
          have hlen' := hreads'.length_le
          exact ih hreads'.le (by omega) h
    · simp

theorem parsebacks_turns : parsebacks line fuel cmd s ≠ .error .turns := by
  induction fuel generalizing cmd s with
  | zero => omega
  | succ fuel ih =>
    rcases parsebacks_cases h0 hs fuel cmd with ⟨s', hreads, heq⟩ | ⟨-, s', -, heq⟩ <;> rw [heq]
    · have hlen := hreads.length_le
      simp only [length_cons, length_nil] at hlen
      exact ih hreads.le (by omega)
    · simp

end

-- Every call has turns enough, since a call that is not the first for its token goes one
-- nonterminal down.
theorem parse_turns (fuel : Nat) :
    (∀ s, s ≤ line.length → 4 * (toks line s).length + 4 ≤ fuel → parseline line fuel s ≠ .error .turns) ∧
    (∀ s, s ≤ line.length → 4 * (toks line s).length + 3 ≤ fuel → parsepipe line fuel s ≠ .error .turns) ∧
    (∀ s, s ≤ line.length → 4 * (toks line s).length + 2 ≤ fuel → parseexec line fuel s ≠ .error .turns) ∧
    (∀ s, s ≤ line.length → 4 * (toks line s).length + 1 ≤ fuel → parseblock line fuel s ≠ .error .turns) := by
  induction fuel with
  | zero => refine ⟨?_, ?_, ?_, ?_⟩ <;> intros <;> omega
  | succ fuel ih =>
    obtain ⟨ihline, ihpipe, ihexec, ihblock⟩ := ih
    obtain ⟨hline, hpipe, hexec, -⟩ := parse_sound h0 fuel
    refine ⟨?_, ?_, ?_, ?_⟩
    · intro s hs hfuel h
      rw [parseline_succ] at h
      rcases bind_eq_error.mp h with h | ⟨r, hr, h⟩
      · exact ihpipe s hs (by omega) h
      obtain ⟨us, hreads, -⟩ := hpipe s r hs hr
      have hlen := hreads.length_le
      rcases bind_eq_error.mp h with h | ⟨r₂, hr₂, h⟩
      · exact parsebacks_turns h0 hreads.le (by omega) h
      obtain ⟨k, hreads₂, -⟩ := parsebacks_sound h0 hreads.le hr₂
      have hlen₂ := hreads₂.length_le
      rcases peek_mark h0 hreads₂.le (show (ch ';', Token.semi) ∈ marks by decide) with ⟨htrue, hsemi⟩ | ⟨hfalse, -⟩
      · rw [if_pos htrue] at h
        have hlen₃ := hsemi.length_le
        simp only [length_cons, length_nil] at hlen₃
        rcases bind_eq_error.mp h with h | ⟨u, -, h⟩
        · exact ihline _ hsemi.le (by omega) h
        · simp at h
      · simp [if_neg hfalse] at h
    · intro s hs hfuel h
      rw [parsepipe_succ] at h
      rcases bind_eq_error.mp h with h | ⟨r, hr, h⟩
      · exact ihexec s hs (by omega) h
      obtain ⟨us, hreads, -⟩ := hexec s r hs hr
      have hlen := hreads.length_le
      rcases peek_mark h0 hreads.le (show (ch '|', Token.bar) ∈ marks by decide) with ⟨htrue, hbar⟩ | ⟨hfalse, -⟩
      · rw [if_pos htrue] at h
        have hlen₂ := hbar.length_le
        simp only [length_cons, length_nil] at hlen₂
        rcases bind_eq_error.mp h with h | ⟨u, -, h⟩
        · exact ihpipe _ hbar.le (by omega) h
        · simp at h
      · simp [if_neg hfalse] at h
    · intro s hs hfuel h
      have hmove := Reads.peek [ch '('] hs
      have hlen := hmove.length_le
      rw [parseexec_succ] at h
      split_ifs at h
      · exact ihblock _ hmove.le (by simp only [length_nil] at hlen; omega) h
      · rcases bind_eq_error.mp h with h | ⟨r, hr, h⟩
        · exact parseredirs_turns h0 hmove.le (by omega) h
        · obtain ⟨us, -, hreads, -⟩ := parseredirs_sound h0 hmove.le hr
          have hlen' := hreads.length_le
          exact parseargs_turns h0 hreads.le (by omega) h
    · intro s hs hfuel h
      rw [parseblock_succ] at h
      rcases peek_mark h0 hs (show (ch '(', Token.lpar) ∈ marks by decide) with ⟨htrue, hlpar⟩ | ⟨hfalse, -⟩
      · rw [if_pos htrue] at h
        have hlen := hlpar.length_le
        simp only [length_cons, length_nil] at hlen
        rcases bind_eq_error.mp h with h | ⟨r, hr, h⟩
        · exact ihline _ hlpar.le (by omega) h
        obtain ⟨us, hreads, -⟩ := hline _ r hlpar.le hr
        have hlen₂ := hreads.length_le
        rcases peek_mark h0 hreads.le (show (ch ')', Token.rpar) ∈ marks by decide) with ⟨htrue, hrpar⟩ | ⟨hfalse, -⟩
        · rw [if_pos htrue] at h
          have hlen₃ := hrpar.length_le
          exact parseredirs_turns h0 hrpar.le (by omega) h
        · simp [if_neg hfalse] at h
      · simp [if_neg hfalse] at h

end Turns

end Xv6.Sh
