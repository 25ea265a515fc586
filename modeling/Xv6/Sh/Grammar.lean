import Xv6.Sh.Tokens
import Mathlib.Logic.Function.Iterate

namespace Xv6.Sh

open List

abbrev Word := List Byte

structure Redir (α : Type) where
  file : α
  mode : Nat
  fd : Nat

def Redir.map {α β : Type} (f : α → β) (r : Redir α) : Redir β := { r with file := f r.file }

-- Later redirections wrap earlier ones.
def wrap {α : Type} (R : List (Redir α)) (t : Cmd α) : Cmd α :=
  R.foldl (fun t r => .redir t r.file r.mode r.fd) t

-- The mode and the file descriptor of a redirection.
def Token.redir : Token → Option (Nat × Nat)
  | .lt => some (O_RDONLY, 0)
  | .gt => some (O_WRONLY ||| O_CREATE ||| O_TRUNC, 1)
  | .gtgt => some (O_WRONLY ||| O_CREATE, 1)
  | _ => none

-- redir*
inductive Redirs : List Token → List (Redir Word) → Prop
  | nil : Redirs [] []
  | cons {op : Token} {m fd : Nat} {f : Word} {ts : List Token} {R : List (Redir Word)} :
      op.redir = some (m, fd) → Redirs ts R → Redirs (op :: .word f :: ts) (⟨f, m, fd⟩ :: R)

-- (word redir*)*
inductive Args : List Token → List Word → List (Redir Word) → Prop
  | nil : Args [] [] []
  | cons {w : Word} {rs ts : List Token} {ws : List Word} {R R' : List (Redir Word)} :
      Redirs rs R → Args ts ws R' → Args (.word w :: rs ++ ts) (w :: ws) (R ++ R')

inductive Nonterminal where
  | line | pipe | exec

-- line := pipe '&'* [';' line]
-- pipe := exec ['|' pipe]
-- exec := '(' line ')' redir* | redir* (word redir*)*
inductive Derives : Nonterminal → List Token → Cmd Word → Prop
  | line {ts : List Token} {t : Cmd Word} (k : Nat) :
      Derives .pipe ts t → Derives .line (ts ++ List.replicate k .amp) (Cmd.back^[k] t)
  | lines {ts us : List Token} {t u : Cmd Word} (k : Nat) :
      Derives .pipe ts t → Derives .line us u →
      Derives .line (ts ++ (List.replicate k .amp ++ .semi :: us)) (.list (Cmd.back^[k] t) u)
  | pipe {ts : List Token} {t : Cmd Word} : Derives .exec ts t → Derives .pipe ts t
  | pipes {ts us : List Token} {t u : Cmd Word} :
      Derives .exec ts t → Derives .pipe us u → Derives .pipe (ts ++ .bar :: us) (.pipe t u)
  | block {ts rs : List Token} {t : Cmd Word} {R : List (Redir Word)} :
      Derives .line ts t → Redirs rs R → Derives .exec (.lpar :: (ts ++ .rpar :: rs)) (wrap R t)
  | simple {rs ts : List Token} {ws : List Word} {R R' : List (Redir Word)} :
      Redirs rs R → Args ts ws R' → ws.length < MAXARGS →
      Derives .exec (rs ++ ts) (wrap (R ++ R') (.exec ws))

section Trees

variable {α β : Type} {R R' : List (Redir α)} {t : Cmd α} {f : α → β}

theorem wrap_nil : wrap [] t = t := rfl

theorem wrap_append : wrap (R ++ R') t = wrap R' (wrap R t) := by rw [wrap, foldl_append]; rfl

theorem wrap_cons (r : Redir α) : wrap (r :: R) t = wrap R (.redir t r.file r.mode r.fd) := rfl

theorem map_wrap : (wrap R t).map f = wrap (R.map (Redir.map f)) (t.map f) := by
  induction R generalizing t with
  | nil => rfl
  | cons r R ih => rw [wrap_cons, map_cons, wrap_cons, ih]; rfl

theorem addArg_wrap (w : α) : (wrap R t).addArg w = wrap R (t.addArg w) := by
  induction R generalizing t with
  | nil => rfl
  | cons r R ih => rw [wrap_cons, wrap_cons, ih]; rfl

theorem map_backs (k : Nat) : (Cmd.back^[k] t).map f = Cmd.back^[k] (t.map f) := by
  induction k generalizing t with
  | zero => rfl
  | succ k ih => exact ih

def Cmd.words : Cmd α → List α
  | .exec argv => argv
  | .redir cmd file _ _ => cmd.words ++ [file]
  | .pipe left right => left.words ++ right.words
  | .list left right => left.words ++ right.words
  | .back cmd => cmd.words

theorem words_wrap : (wrap R t).words = t.words ++ R.map (·.file) := by
  induction R generalizing t with
  | nil => rw [wrap_nil, map_nil, append_nil]
  | cons r R ih => rw [wrap_cons, ih, Cmd.words, append_assoc, map_cons]; rfl

theorem words_backs (k : Nat) : (Cmd.back^[k] t).words = t.words := by
  induction k generalizing t with
  | zero => rfl
  | succ k ih => exact ih

end Trees

section Derivations

variable {ts rs us : List Token} {ws : List Word} {R R' : List (Redir Word)} {t : Cmd Word}

theorem Redirs.append (h : Redirs ts R) (h' : Redirs us R') : Redirs (ts ++ us) (R ++ R') := by
  induction h with
  | nil => exact h'
  | cons hop _ ih => exact .cons hop ih

theorem Args.append_redirs (h : Args ts ws R) (hne : ws ≠ []) (h' : Redirs us R') : Args (ts ++ us) ws (R ++ R') := by
  induction h with
  | nil => exact absurd rfl hne
  | @cons w rs ts ws R₁ R₂ hr ha ih =>
    cases ha with
    | nil => simpa using Args.cons (w := w) (hr.append h') .nil
    | cons hr' ha' =>
      have := Args.cons (w := w) hr (ih (by simp))
      simpa only [cons_append, append_assoc] using this

theorem Args.nil_inv (h : Args ts [] R) : ts = [] ∧ R = [] := by
  cases h with
  | nil => exact ⟨rfl, rfl⟩

theorem Derives.redirs (h : Derives .exec ts t) (h' : Redirs us R') : Derives .exec (ts ++ us) (wrap R' t) := by
  cases h with
  | block hl hr =>
    rw [← wrap_append, cons_append, append_assoc, cons_append]
    exact .block hl (hr.append h')
  | @simple rs ts ws R R₁ hr ha hlen =>
    rw [← wrap_append, append_assoc, append_assoc]
    cases ws with
    | nil =>
      obtain ⟨rfl, rfl⟩ := ha.nil_inv
      have := Derives.simple (hr.append h') .nil (show [].length < MAXARGS by decide)
      simpa using this
    | cons w ws => exact .simple hr (ha.append_redirs (by simp) h') hlen

end Derivations

-- A printed command: the redirections after their command, and parentheses around all that is
-- not a simple command.
def redirToken (mode : Nat) : Token :=
  if mode = O_RDONLY then .lt else if mode = O_WRONLY ||| O_CREATE then .gtgt else .gt

def unparse : Cmd Word → List Token
  | .exec argv => argv.map .word
  | .redir cmd file mode _ => unparse cmd ++ [redirToken mode, .word file]
  | .pipe left right => .lpar :: (unparse left ++ .bar :: unparse right ++ [.rpar])
  | .list left right => .lpar :: (unparse left ++ .semi :: unparse right ++ [.rpar])
  | .back cmd => .lpar :: (unparse cmd ++ [.amp] ++ [.rpar])

def Cmd.Ok : Cmd Word → Prop
  | .exec argv => argv.length < MAXARGS
  | .redir cmd _ mode fd => cmd.Ok ∧ (redirToken mode).redir = some (mode, fd)
  | .pipe left right => left.Ok ∧ right.Ok
  | .list left right => left.Ok ∧ right.Ok
  | .back cmd => cmd.Ok

section Unparse

variable {ts : List Token} {ws : List Word} {R : List (Redir Word)} {t : Cmd Word} {n : Nonterminal}

theorem redirToken_redir {op : Token} {m fd : Nat} (h : op.redir = some (m, fd)) :
    (redirToken m).redir = some (m, fd) := by
  cases op <;> simp [Token.redir] at h <;> obtain ⟨rfl, rfl⟩ := h <;> rfl

theorem Redirs.ok (h : Redirs ts R) (ht : t.Ok) : (wrap R t).Ok := by
  induction h generalizing t with
  | nil => exact ht
  | cons hop _ ih => exact ih ⟨ht, redirToken_redir hop⟩

theorem Args.redirs_ok (h : Args ts ws R) (ht : t.Ok) : (wrap R t).Ok := by
  induction h generalizing t with
  | nil => exact ht
  | cons hr _ ih =>
    rw [wrap_append]
    exact ih (hr.ok ht)

theorem backs_ok (ht : t.Ok) (k : Nat) : (Cmd.back^[k] t).Ok := by
  induction k generalizing t with
  | zero => exact ht
  | succ k ih => exact ih (t := .back t) ht

theorem Derives.ok (h : Derives n ts t) : t.Ok := by
  induction h with
  | line k _ ih => exact backs_ok ih k
  | lines k _ _ ih ih' => exact ⟨backs_ok ih k, ih'⟩
  | pipe _ ih => exact ih
  | pipes _ _ ih ih' => exact ⟨ih, ih'⟩
  | block _ hr ih => exact hr.ok ih
  | simple hr ha hlen =>
    rw [wrap_append]
    exact ha.redirs_ok (hr.ok hlen)

theorem args_words (ws : List Word) : Args (ws.map .word) ws [] := by
  induction ws with
  | nil => exact .nil
  | cons w ws ih => exact .cons .nil ih

theorem Derives.paren (h : Derives .line ts t) : Derives .exec (.lpar :: (ts ++ [.rpar])) t := .block h .nil

theorem unparse_derives : ∀ t : Cmd Word, t.Ok → Derives .exec (unparse t) t
  | .exec argv, h => .simple .nil (args_words argv) h
  | .redir cmd file mode fd, h => (unparse_derives cmd h.1).redirs (.cons h.2 .nil)
  | .pipe left right, h => by
      have hpipe := Derives.pipes (unparse_derives left h.1) (.pipe (unparse_derives right h.2))
      simpa [unparse] using (Derives.line 0 hpipe).paren
  | .list left right, h => by
      have hlist := Derives.lines 0 (.pipe (unparse_derives left h.1))
        (.line 0 (.pipe (unparse_derives right h.2)))
      simpa [unparse] using hlist.paren
  | .back cmd, h => by
      have hback := Derives.line 1 (.pipe (unparse_derives cmd h))
      simpa [unparse] using hback.paren

end Unparse

end Xv6.Sh
