import Xv6.Dir.Theorems

namespace Xv6.Fs

open Lib List

def ROOTINO : Nat := 1

-- The loop of namex(), which has come to the inode ip. A turn takes at least one byte of the path; the
-- iput()s are left out.
def namexLoop (sb : Super) (nameiparent : Bool) :
    Nat → List Byte → Chars → Nat → Disk → Except FsPanic (Option Nat × Chars × Disk)
  | 0, _, name, _, D => .ok (none, name, D)
  | turns + 1, path, name, ip, D =>
    match skipelem path name with
    | none => .ok (if nameiparent then none else some ip, name, D)
    | some (path, name) =>
      if (D.dinodes ip).type = .free then .error .ilockType
      else if (D.dinodes ip).type ≠ .T_DIR then .ok (none, name, D)
      else if nameiparent ∧ path = [] then .ok (some ip, name, D)
      else do
        let (next, _, D) ← dirlookup sb (D.dinodes ip) name D
        match next with
        | none => return (none, name, D)
        | some (inum, _) => namexLoop sb nameiparent turns path name inum D

-- Where a path begins.
def origin (cwd : Nat) (path : List Byte) : Nat := if path.head? = some slash then ROOTINO else cwd

def namex (sb : Super) (cwd : Nat) (nameiparent : Bool) (path : List Byte) (name : Chars) (D : Disk) :
    Except FsPanic (Option Nat × Chars × Disk) :=
  namexLoop sb nameiparent (path.length + 1) path name (origin cwd path) D

def namei (sb : Super) (cwd : Nat) (path : List Byte) (name : Chars) (D : Disk) : Except FsPanic (Option Nat × Disk) :=
  (namex sb cwd false path name D).map fun r => (r.1, r.2.2)

def nameiparent (sb : Super) (cwd : Nat) (path : List Byte) (name : Chars) (D : Disk) :
    Except FsPanic (Option Nat × Chars × Disk) := namex sb cwd true path name D

-- skipelem() again and again: what is in the buffer each time.
def skipelems : Nat → List Byte → Chars → Option (List Chars)
  | 0, _, _ => none
  | turns + 1, path, name =>
    match skipelem path name with
    | none => some []
    | some (path, name) => (skipelems turns path name).map (name :: ·)

-- The maximal runs of bytes other than slashes.
def components (path : List Byte) : List (List Byte) := (path.splitOnP (· = slash)).filter (· ≠ [])

-- The buffer holds the element cut to DIRSIZ bytes, with a NUL if there is room.
def IsName (e : List Byte) (name : Chars) : Prop :=
  readAt name 0 (min e.length DIRSIZ) = e.take DIRSIZ ∧ (e.length < DIRSIZ → name e.length = 0)

-- What a path is to stand for: each element is looked up in the directory that the ones before it stand for.
def resolve (sb : Super) : List (List Byte) → Nat → Disk → Except FsPanic (Option Nat × Disk)
  | [], ip, D => .ok (some ip, D)
  | e :: es, ip, D =>
    if (D.dinodes ip).type = .free then .error .ilockType
    else if (D.dinodes ip).type ≠ .T_DIR then .ok (none, D)
    else do
      let (next, _, D) ← dirlookup sb (D.dinodes ip) (chars (e.take DIRSIZ)) D
      match next with
      | none => return (none, D)
      | some (inum, _) => resolve sb es inum D

def directory : Option Nat × Disk → Except FsPanic (Option Nat × Disk)
  | (none, D) => .ok (none, D)
  | (some ip, D) =>
    if (D.dinodes ip).type = .free then .error .ilockType
    else if (D.dinodes ip).type ≠ .T_DIR then .ok (none, D)
    else .ok (some ip, D)

-- The directory that all elements but the last stand for.
def resolveParent (sb : Super) (es : List (List Byte)) (ip : Nat) (D : Disk) : Except FsPanic (Option Nat × Disk) :=
  if es = [] then .ok (none, D) else resolve sb es.dropLast ip D >>= directory

variable {sb : Super} {path rest e : List Byte} {name : Chars} {D : Disk} {ip turns : Nat}

theorem components_slash (path : List Byte) : components (path.dropWhile (· = slash)) = components path := by
  induction path with
  | nil => rfl
  | cons b path ih =>
    by_cases hb : b = slash
    · rw [dropWhile_cons_of_pos (by simpa using hb), ih]
      simp [components, splitOnP_cons_eq_if_modifyHead, hb]
    · rw [dropWhile_cons_of_neg (by simpa using hb)]

theorem components_append (he : e ≠ []) (hnot : slash ∉ e) (hrest : ∀ b t, rest = b :: t → b = slash) :
    components (e ++ rest) = e :: components rest := by
  have hfalse : ∀ b ∈ e, decide (b = slash) = false := fun b hb => decide_eq_false fun heq => hnot (heq ▸ hb)
  cases rest with
  | nil => simp [components, splitOnP_eq_singleton hfalse, he]
  | cons b t =>
    obtain rfl := hrest b t rfl
    rw [components, splitOnP_append_cons_of_forall_mem hfalse slash (decide_eq_true rfl)]
    simp [components, splitOnP_cons_eq_if_modifyHead, he]

theorem dropWhile_head (f : Byte → Bool) (h : path.dropWhile f = b :: t) : f b = false := by
  have hhead := head?_dropWhile_not f path
  rwa [h] at hhead

theorem components_cons (hb : b ≠ slash) :
    components (b :: t) = (b :: t).takeWhile (· ≠ slash) :: components ((b :: t).dropWhile (· ≠ slash)) := by
  have hrest : ∀ c u, (b :: t).dropWhile (· ≠ slash) = c :: u → c = slash := fun c u hc => by
    simpa using dropWhile_head _ hc
  have hnot : slash ∉ (b :: t).takeWhile (· ≠ slash) := fun hmem => by
    simpa using all_eq_true.mp all_takeWhile _ hmem
  rw [← components_append (by simp [hb]) hnot hrest, takeWhile_append_dropWhile]

theorem isName_writeAt (name : Chars) (e : List Byte) :
    IsName e (if e.length ≥ DIRSIZ then writeAt name 0 (e.take DIRSIZ) else writeAt name 0 (e ++ [0])) := by
  split_ifs with hlong
  · refine ⟨?_, fun h => absurd hlong (Nat.not_le.mpr h)⟩
    have hread := readAt_writeAt name (e.take DIRSIZ) 0
    rwa [length_take, Nat.min_comm] at hread
  · have hread := readAt_writeAt name (e ++ [0]) 0
    have hnul := writeAt_inside name (e ++ [0]) (a := 0) (i := e.length) (by simp)
    have hlen : min e.length DIRSIZ = e.length := by omega
    rw [length_append, readAt_add] at hread
    exact ⟨by rw [hlen, take_of_length_le (by omega)]; exact (append_inj' hread rfl).1,
      fun _ => by simpa using hnul⟩

theorem cut_chars (hlen : s.length ≤ DIRSIZ) (h0 : (0 : Byte) ∉ s) : cut (chars s) = s := by
  obtain ⟨k, hk⟩ := Nat.exists_eq_add_of_le hlen
  rw [cut, hk, readAt_add, readAt_chars, takeWhile_of_notMem h0]
  cases k with
  | zero => simp [readAt]
  | succ k => simp [readAt_succ, chars]

-- A call of skipelem(): there is no element left, or it takes the first one.
theorem skipelem_cases (h0 : (0 : Byte) ∉ path) (name : Chars) :
    skipelem path name = none ∧ components path = [] ∨
    ∃ e rest name', skipelem path name = some (rest, name') ∧ components path = e :: components rest ∧
      rest.length < path.length ∧ (0 : Byte) ∉ rest ∧ (rest = [] ↔ components rest = []) ∧
      cut name' = cut (chars (e.take DIRSIZ)) ∧ IsName e name' := by
  cases hq : path.dropWhile (· = slash) with
  | nil =>
    refine .inl ⟨by simp [skipelem, hq], ?_⟩
    rw [← components_slash, hq]
    rfl
  | cons b q =>
    have hb : b ≠ slash := of_decide_eq_false (dropWhile_head _ hq)
    have hskip : skipelem path name = some (((b :: q).dropWhile (· ≠ slash)).dropWhile (· = slash),
        if (element path).length ≥ DIRSIZ then writeAt name 0 ((element path).take DIRSIZ)
        else writeAt name 0 (element path ++ [0])) := by
      simp only [skipelem, element, hq]
      rfl
    have hsub : (((b :: q).dropWhile (· ≠ slash)).dropWhile (· = slash)).Sublist q := by
      rw [dropWhile_cons_of_pos (by simpa using hb)]
      exact (dropWhile_sublist _).trans (dropWhile_sublist _)
    have hpath : (b :: q).Sublist path := hq ▸ dropWhile_sublist _
    have hcomp : components path = element path :: components ((b :: q).dropWhile (· ≠ slash)) := by
      rw [← components_slash, hq, components_cons hb, element, hq]
    refine .inr ⟨element path, _, _, hskip, by rw [hcomp, components_slash], ?_, ?_, ⟨fun h => by rw [h]; rfl, ?_⟩,
      ?_, isName_writeAt ..⟩
    · exact Nat.lt_of_le_of_lt hsub.length_le hpath.length_le
    · exact fun hmem => h0 (hpath.mem (mem_cons_of_mem _ (hsub.mem hmem)))
    · intro hnil
      by_contra hne
      obtain ⟨c, t, hc⟩ := exists_cons_of_ne_nil hne
      rw [hc, components_cons (of_decide_eq_false (dropWhile_head _ hc))] at hnil
      exact cons_ne_nil _ _ hnil
    · rw [cut_skipelem h0 hskip, cut_chars (length_take_le ..)]
      exact fun hmem => h0 ((dropWhile_sublist _).mem ((takeWhile_sublist _).mem (mem_of_mem_take hmem)))

theorem skipelems_eq (h0 : (0 : Byte) ∉ path) (name : Chars) (hturns : path.length < turns) :
    ∃ names, skipelems turns path name = some names ∧ List.Forall₂ IsName (components path) names := by
  induction turns generalizing path name with
  | zero => omega
  | succ turns ih =>
    rw [skipelems]
    rcases skipelem_cases h0 name with ⟨hskip, hcomp⟩ | ⟨e, rest, name', hskip, hcomp, hlen, h0', -, -, hname⟩
    · exact ⟨[], by rw [hskip], hcomp ▸ .nil⟩
    · obtain ⟨names, hnames, hall⟩ := ih h0' name' (by omega)
      exact ⟨name' :: names, by rw [hskip]; simp only [hnames]; rfl, hcomp ▸ .cons hname hall⟩

-- dirlookup() looks at a name up to its NUL, or to DIRSIZ bytes.
theorem dirlookup_congr (h : cut name = cut name') (dp : Dinode) (D : Disk) :
    dirlookup sb dp name D = dirlookup sb dp name' D := by
  have hcmp : ∀ t, namecmp name t = 0 ↔ namecmp name' t = 0 := fun t => by rw [namecmp_eq_zero, namecmp_eq_zero, h]
  have hloop : ∀ turns dp off D, dirlookupLoop sb name turns dp off D = dirlookupLoop sb name' turns dp off D := by
    intro turns
    induction turns with
    | zero => exact fun _ _ _ => rfl
    | succ turns ih => simp only [dirlookupLoop, hcmp, ih, implies_true]
  rw [dirlookup, dirlookup, hloop]

theorem namexLoop_namei (h0 : (0 : Byte) ∉ path) (name : Chars) (ip : Nat) (D : Disk) (hturns : path.length < turns) :
    (namexLoop sb false turns path name ip D).map (fun r => (r.1, r.2.2)) = resolve sb (components path) ip D := by
  induction turns generalizing path name ip D with
  | zero => omega
  | succ turns ih =>
    rw [namexLoop]
    rcases skipelem_cases h0 name with ⟨hskip, hcomp⟩ | ⟨e, rest, name', hskip, hcomp, hlen, h0', -, hcut, -⟩
    · rw [hskip, hcomp]
      rfl
    · rw [hskip, hcomp, resolve]
      simp only [Bool.false_eq_true, false_and, if_false]
      split_ifs
      · rfl
      · rfl
      · rw [dirlookup_congr hcut]
        cases dirlookup sb (D.dinodes ip) (chars (e.take DIRSIZ)) D with
        | error err => rfl
        | ok r =>
          obtain ⟨_ | ⟨inum, off⟩, dp, D'⟩ := r
          · rfl
          · exact ih h0' name' inum D' (by omega)

theorem namexLoop_nameiparent (h0 : (0 : Byte) ∉ path) (name : Chars) (ip : Nat) (D : Disk)
    (hturns : path.length < turns) :
    (namexLoop sb true turns path name ip D).map (fun r => (r.1, r.2.2)) = resolveParent sb (components path) ip D ∧
    ∀ dp name' D', namexLoop sb true turns path name ip D = .ok (some dp, name', D') →
      ∃ e, (components path).getLast? = some e ∧ IsName e name' := by
  induction turns generalizing path name ip D with
  | zero => omega
  | succ turns ih =>
    rw [namexLoop]
    rcases skipelem_cases h0 name with ⟨hskip, hcomp⟩ | ⟨e, rest, name', hskip, hcomp, hlen, h0', hnil, hcut, hname⟩
    · rw [hskip, hcomp]
      exact ⟨rfl, fun _ _ _ h => by cases h⟩
    · rw [hskip, hcomp, resolveParent, if_neg (cons_ne_nil e _)]
      simp only [true_and]
      by_cases hrest : rest = []
      · rw [hnil.mp hrest, dropLast_singleton, resolve, ok_bind, directory]
        simp only [if_pos hrest]
        split_ifs
        · exact ⟨rfl, fun _ _ _ h => by cases h⟩
        · exact ⟨rfl, fun _ _ _ h => by cases h⟩
        · exact ⟨rfl, fun _ _ _ h => by cases h; exact ⟨e, rfl, hname⟩⟩
      · obtain ⟨f, fs, hfs⟩ := exists_cons_of_ne_nil (mt hnil.mpr hrest)
        rw [hfs, dropLast_cons_cons, resolve]
        simp only [if_neg hrest]
        split_ifs
        · exact ⟨rfl, fun _ _ _ h => by cases h⟩
        · exact ⟨rfl, fun _ _ _ h => by cases h⟩
        · rw [dirlookup_congr hcut]
          cases dirlookup sb (D.dinodes ip) (chars (e.take DIRSIZ)) D with
          | error err => exact ⟨rfl, fun _ _ _ h => by cases h⟩
          | ok r =>
            obtain ⟨_ | ⟨inum, off⟩, dp, D'⟩ := r
            · exact ⟨rfl, fun _ _ _ h => by cases h⟩
            · have h := ih h0' name' inum D' (by omega)
              rw [resolveParent, if_neg (mt hnil.mpr hrest), hfs] at h
              rw [getLast?_cons_cons]
              exact h

theorem path_resolution (sb : Super) (cwd : Nat) {path : List Byte} (h0 : (0 : Byte) ∉ path) (name : Chars) (D : Disk) :
    (∃ names, skipelems (path.length + 1) path name = some names ∧ List.Forall₂ IsName (components path) names) ∧
    namei sb cwd path name D = resolve sb (components path) (origin cwd path) D ∧
    (nameiparent sb cwd path name D).map (fun r => (r.1, r.2.2)) =
      resolveParent sb (components path) (origin cwd path) D ∧
    ∀ dp name' D', nameiparent sb cwd path name D = .ok (some dp, name', D') →
      ∃ e, (components path).getLast? = some e ∧ IsName e name' :=
  ⟨skipelems_eq h0 name (Nat.lt_succ_self _), namexLoop_namei h0 name _ D (Nat.lt_succ_self _),
    namexLoop_nameiparent h0 name _ D (Nat.lt_succ_self _)⟩

-- The path /a/ in a working directory that does not matter.
theorem path_resolution_absolute :
    namei sampleSuper 7 [slash, 0x61, slash] (fun _ => 0) sampleDir = resolve sampleSuper [[0x61]] ROOTINO sampleDir := by
  have h0 : (0 : Byte) ∉ [slash, 0x61, slash] := by decide
  exact (path_resolution sampleSuper 7 h0 (fun _ => 0) sampleDir).2.1

end Xv6.Fs
