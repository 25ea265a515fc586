import Xv6.Log.Control
import Xv6.Log.Recoverable

namespace Xv6.Log

open Lib Function

variable {ι : Type} {g : Geometry} {d0 : Disk} {s : State ι}

theorem afterUpdates_append (d : Disk) (first second : List Update) :
    afterUpdates d (first ++ second) = afterUpdates (afterUpdates d first) second := by
  simp [afterUpdates, replay_append]

theorem afterUpdates_concat (d : Disk) (us : List Update) (o : Nat) (b : BlockNo) (x : Block) :
    afterUpdates d (us ++ [⟨o, b, x⟩]) = update (afterUpdates d us) b x := by
  simp [afterUpdates, replay_concat]

theorem afterUpdates_of_notMem (d : Disk) (us : List Update) (b : BlockNo)
    (h : ∀ u ∈ us, u.block ≠ b) : afterUpdates d us b = d b := by
  apply replay_of_notMem
  simp only [List.map_map, List.mem_map, Function.comp_apply, not_exists, not_and]
  exact h

namespace State

-- The home blocks after the committed groups, and after the current one as well.
def committed (d0 : Disk) (s : State ι) : Disk := afterUpdates d0 s.groups.flatten

def pending (d0 : Disk) (s : State ι) : Disk := afterUpdates (s.committed d0) s.current

def header (g : Geometry) (s : State ι) : List BlockNo := decodeHead (s.disk g.headBlock)

end State

def Pc.gathers : Pc → Bool
  | .idle | .writeLog _ | .writeHead => true
  | _ => false

-- How far commit() or recovery has come.
def Phase (g : Geometry) (d0 : Disk) (s : State ι) : Prop :=
  match s.pc with
  | .readHead | .panicked => True
  | .idle => s.header g = []
  | .writeLog tail => s.header g = [] ∧
      ∀ i b, i < tail → s.lh[i]? = some b → s.disk (g.logBlock i) = s.pending d0 b
  | .writeHead => s.header g = [] ∧
      ∀ i b, s.lh[i]? = some b → s.disk (g.logBlock i) = s.pending d0 b
  | .install tail | .recoverInstall tail => s.header g = s.lh ∧
      ∀ i b, i < tail → s.lh[i]? = some b → s.disk b = s.committed d0 b
  | .clear | .recoverClear => s.header g = s.lh ∧ ∀ b ∈ s.lh, s.disk b = s.committed d0 b
  | .finish => s.header g = [] ∧ s.lh = []

structure DiskInv (g : Geometry) (d0 : Disk) (s : State ι) : Prop where
  recoverable : Recoverable g s.disk (s.committed d0)
  phase : Phase g d0 s
  -- the log region is never dirty in the cache
  region : ∀ b x, g.InLog b → s.cache b = some x → x = s.disk b
  held : ∀ b p, s.holder b = some p → s.cache b ≠ none
  fits : Fits g s.lh
  home : ∀ b ∈ s.lh, g.Home b
  -- a logged block stays in the cache, with every update of the group in it
  logged : s.pc.gathers = true → ∀ b ∈ s.lh, s.cache b = some (s.pending d0 b) ∧ 0 < s.pins b
  touched : ∀ u ∈ s.current, u.block ∈ s.lh
  settled : s.pc.gathers = false → s.pc ≠ .panicked → s.current = []

theorem DiskInv.data_region (h : DiskInv g d0 s) (hb : g.InLog b) : s.data b = s.disk b := by
  cases hc : s.cache b with
  | none => simp [State.data, hc]
  | some x => simp [State.data, hc, h.region b x hb hc]

theorem DiskInv.data_logged (h : DiskInv g d0 s) (hpc : s.pc.gathers = true) (hb : b ∈ s.lh) :
    s.data b = s.pending d0 b := by
  simp [State.data, (h.logged hpc b hb).1]

theorem DiskInv.pending_of_notMem (h : DiskInv g d0 s) (hb : b ∉ s.lh) :
    s.pending d0 b = s.committed d0 b := by
  apply afterUpdates_of_notMem
  intro u hu hub
  exact hb (hub ▸ h.touched u hu)

theorem State.cache_load (s : State ι) (b c : BlockNo) :
    (s.load b).cache c = if c = b then some (s.data b) else s.cache c := by
  simp only [State.load, update_apply]

theorem DiskInv.load (h : DiskInv g d0 s) (b : BlockNo) : DiskInv g d0 (s.load b) where
  recoverable := h.recoverable
  phase := h.phase
  region := by
    intro c x hc hx
    rw [State.cache_load] at hx
    split_ifs at hx with hcb
    · rw [← Option.some.inj hx, ← hcb]
      exact h.data_region hc
    · exact h.region c x hc hx
  held := by
    intro c p hp
    rw [State.cache_load]
    split_ifs
    · simp
    · exact h.held c p hp
  fits := h.fits
  home := h.home
  logged := by
    intro hpc c hc
    refine ⟨?_, (h.logged hpc c hc).2⟩
    rw [State.cache_load]
    split_ifs with hcb
    · rw [← hcb, h.data_logged hpc hc]
      rfl
    · exact (h.logged hpc c hc).1
  touched := h.touched
  settled := h.settled

theorem State.data_load (s : State ι) (b c : BlockNo) : (s.load b).data c = s.data c := by
  simp only [State.data, State.cache_load]
  split_ifs with hcb
  · subst hcb
    rfl
  · rfl

theorem State.pending_withUpdate (d0 : Disk) (s : State ι) (b : BlockNo) (d : Block) (o : Nat) :
    (s.withUpdate b d o).pending d0 = update (s.pending d0) b d :=
  afterUpdates_concat _ _ _ _ _

theorem touched_withUpdate {lh : List BlockNo} (h : ∀ u ∈ s.current, u.block ∈ lh) (hb : b ∈ lh)
    (d : Block) (o : Nat) : ∀ u ∈ (s.withUpdate b d o).current, u.block ∈ lh := by
  intro u hu
  rcases List.mem_append.mp hu with hu | hu
  · exact h u hu
  · rw [List.mem_singleton.mp hu]
    exact hb

theorem DiskInv.modify (h : DiskInv g d0 s) (hidle : s.pc = .idle) (hop : s.op p = some o)
    (hb : g.Home b) (d : Block) : DiskInv g d0 (s.modify p b d) := by
  have hregion : ∀ c x, g.InLog c → update s.cache b (some d) c = some x →
      x = s.disk c := by
    intro c x hc hx
    rw [update_of_ne (hb.ne_of_inLog hc).symm] at hx
    exact h.region c x hc hx
  have hheld : ∀ c q, s.holder c = some q → update s.cache b (some d) c ≠ none := by
    intro c q hq
    rw [update_apply]
    split_ifs
    · simp
    · exact h.held c q hq
  have hphase := h.phase
  rcases s.modify_cases p b d hop with ⟨hmem, heq⟩ | ⟨hmem, heq⟩
  · rw [heq]
    refine ⟨h.recoverable, ?_, hregion, hheld, h.fits, h.home, ?_,
      touched_withUpdate h.touched hmem d o, ?_⟩
    · simp only [Phase, hidle, State.withUpdate] at hphase ⊢
      exact hphase
    · intro hpc c hc
      refine ⟨?_, (h.logged hpc c hc).2⟩
      show update s.cache b (some d) c = some ((s.withUpdate b d o).pending d0 c)
      rw [State.pending_withUpdate, update_apply, update_apply]
      split_ifs with hcb
      · rfl
      · exact (h.logged hpc c hc).1
    · intro hpc
      simp [State.withUpdate, hidle, Pc.gathers] at hpc
  · rw [heq]
    refine ⟨h.recoverable, ?_, hregion, hheld, h.fits, h.home, ?_, h.touched, h.settled⟩
    · simp only [Phase, hidle] at hphase ⊢
      exact hphase
    · intro hpc c hc
      have hcb : c ≠ b := by
        intro hcb
        exact hmem (hcb ▸ hc)
      refine ⟨?_, (h.logged hpc c hc).2⟩
      show update s.cache b (some d) c = some (s.pending d0 c)
      rw [update_of_ne hcb]
      exact (h.logged hpc c hc).1

theorem DiskInv.panicked (h : DiskInv g d0 s) : DiskInv g d0 { s with pc := .panicked } :=
  ⟨h.recoverable, trivial, h.region, h.held, h.fits, h.home,
    fun hpc => absurd hpc (by simp [Pc.gathers]), h.touched, fun _ hpanic => absurd rfl hpanic⟩

theorem DiskInv.logWrite (h : DiskInv g d0 s) (hidle : s.pc = .idle) (hop : s.op p = some o)
    (hholder : s.holder b = some p) (hb : g.Home b) : DiskInv g d0 (s.logWrite g p b) := by
  have hgathers : s.pc.gathers = true := by
    rw [hidle]
    rfl
  have hdata : s.cache b = some (s.data b) := by
    obtain ⟨x, hx⟩ := Option.ne_none_iff_exists'.mp (h.held b p hholder)
    simp [State.data, hx]
  have hpend := State.pending_withUpdate d0 s b (s.data b) o
  have hphase := h.phase
  rcases s.logWrite_cases p b hop with heq | ⟨hmem, heq⟩ | ⟨hmem, hsize, hlog, heq⟩
  · rw [heq]
    exact h.panicked
  · rw [heq]
    refine ⟨h.recoverable, ?_, h.region, h.held, h.fits, h.home, ?_,
      touched_withUpdate h.touched hmem _ o, ?_⟩
    · simp only [Phase, hidle, State.withUpdate] at hphase ⊢
      exact hphase
    · intro _ c hc
      refine ⟨?_, (h.logged hgathers c hc).2⟩
      rw [hpend, update_apply]
      split_ifs with hcb
      · rw [hcb]
        exact hdata
      · exact (h.logged hgathers c hc).1
    · intro hpc
      simp [State.withUpdate, hidle, Pc.gathers] at hpc
  · rw [heq]
    have hsub : ∀ u ∈ s.current, u.block ∈ s.lh ++ [b] := by
      intro u hu
      exact List.mem_append_left _ (h.touched u hu)
    refine ⟨h.recoverable, ?_, h.region, h.held, ?_, ?_, ?_,
      touched_withUpdate hsub (by simp) _ o, ?_⟩
    · simp only [Phase, hidle, State.withUpdate, State.bpin] at hphase ⊢
      exact hphase
    · simp only [Fits, List.length_append, List.length_singleton]
      omega
    · intro c hc
      rcases List.mem_append.mp hc with hc | hc
      · exact h.home c hc
      · rw [List.mem_singleton.mp hc]
        exact hb
    · intro _ c hc
      have hp : State.pending d0 { (s.withUpdate b (s.data b) o).bpin b with lh := s.lh ++ [b] } =
          update (s.pending d0) b (s.data b) := hpend
      rw [hp]
      by_cases hcb : c = b
      · subst hcb
        simp [State.bpin, State.withUpdate, hdata]
      · have hc' : c ∈ s.lh := by simpa [hcb] using hc
        simpa [State.bpin, State.withUpdate, hcb] using h.logged hgathers c hc'
    · intro hpc
      simp [State.withUpdate, State.bpin, hidle, Pc.gathers] at hpc

theorem DiskInv.region_bwrite (h : DiskInv g d0 s) (b : BlockNo) (d : Block) :
    ∀ c x, g.InLog c → (s.bwrite b d).cache c = some x → x = (s.bwrite b d).disk c := by
  intro c x hc hx
  simp only [State.bwrite, update_apply] at hx ⊢
  split_ifs at hx ⊢ with hcb
  · exact (Option.some.inj hx).symm
  · exact h.region c x hc hx

theorem DiskInv.held_bwrite (h : DiskInv g d0 s) (b : BlockNo) (d : Block) :
    ∀ c p, s.holder c = some p → (s.bwrite b d).cache c ≠ none := by
  intro c p hp
  simp only [State.bwrite, update_apply]
  split_ifs with hcb
  · simp
  · exact h.held c p hp

theorem State.writeHead_eq (s : State ι) :
    s.writeHead g = s.bwrite g.headBlock (encodeHead s.lh (s.data g.headBlock)) := by
  show (s.load g.headBlock).bwrite g.headBlock
    (encodeHead s.lh ((s.load g.headBlock).data g.headBlock)) = _
  rw [State.data_load]
  simp only [State.bwrite, State.load, update_idem]

theorem DiskInv.writeLog (h : DiskInv g d0 s) (hpc : s.pc = .writeLog tail)
    (hb : s.lh[tail]? = some b) : DiskInv g d0 { s.bwrite (g.logBlock tail) (s.pending d0 b) with
      pc := .writeLog (tail + 1) } := by
  have hphase := h.phase
  simp only [Phase, hpc] at hphase
  obtain ⟨hempty, hcopy⟩ := hphase
  have ht := h.fits.index_lt hb
  have hgathers : s.pc.gathers = true := by
    rw [hpc]
    rfl
  refine ⟨h.recoverable.writeLog hempty ht _, ⟨?_, ?_⟩, h.region_bwrite _ _, h.held_bwrite _ _, h.fits,
    h.home, ?_, h.touched, fun hn => absurd hn (by simp [Pc.gathers])⟩
  · show decodeHead (update s.disk (g.logBlock tail) _ g.headBlock) = []
    rw [update_of_ne (Geometry.logBlock_ne_headBlock ht).symm]
    exact hempty
  · intro i c hi hc
    show update s.disk (g.logBlock tail) _ (g.logBlock i) = s.pending d0 c
    by_cases hit : i = tail
    · subst hit
      rw [update_self, Option.some.inj (hb.symm.trans hc)]
    · have hne : g.logBlock i ≠ g.logBlock tail := by
        intro heq
        exact hit (Geometry.logBlock_inj (h.fits.index_lt hc) ht heq)
      rw [update_of_ne hne]
      exact hcopy i c (by omega) hc
  · intro _ c hc
    refine ⟨?_, (h.logged hgathers c hc).2⟩
    show update s.cache (g.logBlock tail) _ c = some (s.pending d0 c)
    rw [update_of_ne ((h.home c hc).ne_of_inLog (Geometry.inLog_logBlock ht))]
    exact (h.logged hgathers c hc).1

-- The commit point: the header names the group, and the group counts as committed.
theorem DiskInv.writeHead (h : DiskInv g d0 s) (hpc : s.pc = .writeHead) (old : Block) :
    DiskInv g d0 { s.bwrite g.headBlock (encodeHead s.lh old) with
      pc := .install 0
      groups := s.groups ++ [s.current]
      current := [] } := by
  have hphase := h.phase
  simp only [Phase, hpc] at hphase
  obtain ⟨hempty, hcopy⟩ := hphase
  have hcommitted : afterUpdates d0 (s.groups ++ [s.current]).flatten = s.pending d0 := by
    simp only [List.flatten_append, List.flatten_cons, List.flatten_nil, List.append_nil,
      afterUpdates_append]
    rfl
  refine ⟨?_, ⟨?_, ?_⟩, h.region_bwrite _ _, h.held_bwrite _ _, h.fits, h.home,
    fun hn => absurd hn (by simp [Pc.gathers]), fun u hu => absurd hu (by simp), fun _ _ => rfl⟩
  · show Recoverable g (update s.disk g.headBlock (encodeHead s.lh old))
      (afterUpdates d0 (s.groups ++ [s.current]).flatten)
    rw [hcommitted]
    exact h.recoverable.commit hempty h.fits h.home hcopy (fun b hb => h.pending_of_notMem hb) old
  · show decodeHead (update s.disk g.headBlock _ g.headBlock) = s.lh
    rw [update_self]
    exact decodeHead_encodeHead h.fits old
  · intro i b hi
    omega

theorem DiskInv.install (h : DiskInv g d0 s) (hheader : s.header g = s.lh)
    (hdone : ∀ i b, i < tail → s.lh[i]? = some b → s.disk b = s.committed d0 b)
    (hb : s.lh[tail]? = some b) (hcurrent : s.current = []) (pins : BlockNo → Nat)
    (hpc : pc = .install (tail + 1) ∨ pc = .recoverInstall (tail + 1)) :
    DiskInv g d0 { s.bwrite b (s.committed d0 b) with
      pins := pins
      pc := pc } := by
  have hmem : b ∈ s.lh := List.mem_of_getElem? hb
  have hstep : ({ s.bwrite b (s.committed d0 b) with
      pins := pins
      pc := pc } : State ι).header g = s.lh ∧
      ∀ i c, i < tail + 1 → s.lh[i]? = some c →
        update s.disk b (s.committed d0 b) c = s.committed d0 c := by
    constructor
    · show decodeHead (update s.disk b _ g.headBlock) = s.lh
      rw [headBlock_update_of_home (h.home b hmem)]
      exact hheader
    · intro i c hi hc
      rw [update_apply]
      split_ifs with hcb
      · rw [hcb]
      · refine hdone i c ?_ hc
        have hit : i ≠ tail := by
          intro hit
          subst hit
          exact hcb (Option.some.inj (hc.symm.trans hb))
        omega
  have hgathers : pc.gathers = false := by
    rcases hpc with hpc | hpc <;> simp [hpc, Pc.gathers]
  have hmem' : b ∈ s.header g := hheader.symm ▸ hmem
  refine ⟨h.recoverable.install hmem', ?_, h.region_bwrite _ _, h.held_bwrite _ _, h.fits, h.home,
    fun hn => absurd hn (by simp [hgathers]), h.touched, fun _ _ => hcurrent⟩
  rcases hpc with hpc | hpc
  · subst hpc
    exact hstep
  · subst hpc
    exact hstep

theorem DiskInv.clear (h : DiskInv g d0 s) (hheader : s.header g = s.lh)
    (hdone : ∀ b ∈ s.lh, s.disk b = s.committed d0 b) (hcurrent : s.current = []) (old : Block) (hpc : pc = .finish ∨ pc = .idle) :
    DiskInv g d0 { s.bwrite g.headBlock (encodeHead [] old) with
      lh := []
      pc := pc } := by
  have hdone' : ∀ b ∈ s.header g, s.disk b = s.committed d0 b := hheader.symm ▸ hdone
  obtain ⟨hempty, hhome⟩ := h.recoverable.clear hdone' old
  refine ⟨recoverable_of_empty hempty hhome, ?_, h.region_bwrite _ _, h.held_bwrite _ _, fits_nil g,
    by simp, fun _ c hc => absurd hc (by simp), ?_, fun _ _ => hcurrent⟩
  · rcases hpc with hpc | hpc
    · subst hpc
      exact ⟨hempty, rfl⟩
    · subst hpc
      exact hempty
  · intro u hu
    exact absurd (show u ∈ s.current from hu) (by simp [hcurrent])

theorem forall_mem_of_index {lh : List BlockNo} {P : BlockNo → Prop} {tail : Nat}
    (hnone : lh[tail]? = none) (h : ∀ (i : Nat) b, i < tail → lh[i]? = some b → P b) :
    ∀ b ∈ lh, P b := by
  intro b hb
  obtain ⟨i, hi⟩ := List.getElem?_of_mem hb
  obtain ⟨hlt, -⟩ := List.getElem?_eq_some_iff.mp hi
  have hlen := List.getElem?_eq_none_iff.mp hnone
  exact h i b (by omega) hi

-- A turn of install_trans(), with the copy in the log.
theorem DiskInv.installTrans (h : DiskInv g d0 s) (hheader : s.header g = s.lh)
    (hdone : ∀ i b, i < tail → s.lh[i]? = some b → s.disk b = s.committed d0 b)
    (hb : s.lh[tail]? = some b) (hcurrent : s.current = []) (recovering : Bool)
    (hpc : pc = .install (tail + 1) ∨ pc = .recoverInstall (tail + 1)) :
    DiskInv g d0 { s.installTrans g recovering tail b with pc := pc } := by
  have hload := (h.load (g.logBlock tail)).load b
  have hdata : ((s.load (g.logBlock tail)).load b).data (g.logBlock tail) = s.committed d0 b := by
    rw [State.data_load, State.data_load, h.data_region (Geometry.inLog_logBlock (h.fits.index_lt hb))]
    apply h.recoverable.copy
    show (s.header g)[tail]? = some b
    rw [hheader]
    exact hb
  rw [State.installTrans, hdata]
  cases recovering <;> exact hload.install hheader hdone hb hcurrent _ hpc

theorem DiskInv.installed (h : DiskInv g d0 s) (hheader : s.header g = s.lh)
    (hdone : ∀ (i : Nat) b, i < tail → s.lh[i]? = some b → s.disk b = s.committed d0 b)
    (hb : s.lh[tail]? = none) (hcurrent : s.current = []) (hpc : pc = .clear ∨ pc = .recoverClear) :
    DiskInv g d0 { s with pc := pc } := by
  have hall := forall_mem_of_index hb hdone
  rcases hpc with rfl | rfl <;>
    exact { h with
      phase := ⟨hheader, hall⟩
      logged := fun hn => absurd hn (by simp [Pc.gathers])
      settled := fun _ _ => hcurrent }

theorem DiskInv.commit (h : DiskInv g d0 s) : DiskInv g d0 (s.commit g) := by
  have hphase := h.phase
  have hsettled := h.settled
  fun_cases State.commit g s <;> try simp only [Phase, *] at hphase hsettled
  · next tail hpc b hb t =>
    have hdata : ((s.load (g.logBlock tail)).load b).data b = s.pending d0 b := by
      rw [State.data_load, State.data_load]
      exact h.data_logged (by rw [hpc]; rfl) (List.mem_of_getElem? hb)
    simp only [t, State.writeLog, hdata]
    exact ((h.load (g.logBlock tail)).load b).writeLog hpc hb
  · next tail hpc hb =>
    refine { h with
      phase := ⟨hphase.1, fun i b hi => ?_⟩
      logged := fun _ => h.logged (by rw [hpc]; rfl)
      settled := by simp [Pc.gathers] }
    obtain ⟨hlt, -⟩ := List.getElem?_eq_some_iff.mp hi
    exact hphase.2 i b (Nat.lt_of_lt_of_le hlt (List.getElem?_eq_none_iff.mp hb)) hi
  · next hpc t =>
    simp only [t, State.writeHead_eq]
    exact h.writeHead hpc (s.data g.headBlock)
  · next tail hpc b hb _ => exact h.installTrans hphase.1 hphase.2 hb (hsettled rfl (by simp)) _ (.inl rfl)
  · next tail hpc hb => exact h.installed hphase.1 hphase.2 hb (hsettled rfl (by simp)) (.inl rfl)
  · next hpc t =>
    simp only [t, State.writeHead_eq]
    exact h.clear hphase.1 hphase.2 (hsettled rfl (by simp)) _ (.inl rfl)
  · next hpc => exact { h with phase := hphase.1, logged := by simp [hphase.2], settled := by simp [Pc.gathers] }
  · exact h

theorem DiskInv.recover (h : DiskInv g d0 s) : DiskInv g d0 (s.recover g) := by
  have hphase := h.phase
  have hsettled := h.settled
  fun_cases State.recover g s <;> try simp only [Phase, *] at hphase hsettled
  · next hpc t =>
    have hcurrent := hsettled rfl (by simp)
    have hload := h.load g.headBlock
    have hdata : t.data g.headBlock = s.disk g.headBlock := by
      rw [State.data_load]
      exact h.data_region g.inLog_headBlock
    rw [hdata]
    exact { hload with
      phase := ⟨rfl, fun i b hi => absurd hi (by omega)⟩
      fits := h.recoverable.fits
      home := h.recoverable.home
      logged := fun hn => absurd hn (by simp [Pc.gathers])
      touched := fun u hu => absurd (show u ∈ s.current from hu) (by simp [hcurrent])
      settled := fun _ _ => hcurrent }
  · next tail hpc b hb _ => exact h.installTrans hphase.1 hphase.2 hb (hsettled rfl (by simp)) _ (.inr rfl)
  · next tail hpc hb => exact h.installed hphase.1 hphase.2 hb (hsettled rfl (by simp)) (.inr rfl)
  · next hpc t =>
    simp only [t, State.writeHead_eq]
    exact h.clear hphase.1 hphase.2 (hsettled rfl (by simp)) _ (.inr rfl)
  · exact h

theorem DiskInv.endOp [DecidableEq ι] [Fintype ι] (h : DiskInv g d0 s) (hctl : Control s)
    (hidle : s.pc = .idle) (p : ι) : DiskInv g d0 (s.endOp p) := by
  have hphase := h.phase
  simp only [Phase, hidle] at hphase
  have hlogged := h.logged (by rw [hidle]; rfl)
  rcases s.endOp_cases p (hctl.not_committing hidle) with ⟨-, heq⟩ | ⟨-, heq⟩
  · rw [heq]
    by_cases hlh : s.lh = []
    · refine ⟨h.recoverable, ?_, h.region, h.held, h.fits, h.home, ?_, h.touched, fun _ _ => ?_⟩
      · simp only [Phase, hlh, if_true]
        exact ⟨hphase, trivial⟩
      · exact fun _ b hb => hlogged b hb
      · -- an update of the group names a block of the empty header
        by_contra hne
        obtain ⟨u, hu⟩ := List.exists_mem_of_ne_nil _ hne
        simpa [hlh] using h.touched u hu
    · refine ⟨h.recoverable, ?_, h.region, h.held, h.fits, h.home, fun _ => hlogged, h.touched, ?_⟩
      · simp only [Phase, hlh, if_false]
        exact ⟨hphase, fun i b hi => absurd hi (by omega)⟩
      · intro hn
        simp [hlh, Pc.gathers] at hn
  · rw [heq]
    exact { h with }

theorem DiskInv.bread [DecidableEq ι] (h : DiskInv g d0 s) (p : ι) (b : BlockNo) :
    DiskInv g d0 { s.load b with holder := update s.holder b (some p) } := by
  have hload := h.load b
  refine { hload with held := fun c q hq => ?_ }
  show (s.load b).cache c ≠ none
  rw [State.cache_load]
  split_ifs with hcb
  · simp
  · have hq' : s.holder c = some q := by simpa [hcb] using hq
    exact h.held c q hq'

theorem DiskInv.brelse (h : DiskInv g d0 s) (b : BlockNo) :
    DiskInv g d0 { s with holder := update s.holder b none } := by
  refine { h with held := fun c q hq => ?_ }
  by_cases hcb : c = b
  · simp [hcb] at hq
  · exact h.held c q (by simpa [hcb] using hq)

theorem DiskInv.evict (h : DiskInv g d0 s) (hholder : s.holder b = none) (hpins : s.pins b = 0) :
    DiskInv g d0 { s with cache := update s.cache b none } := by
  refine { h with region := fun c x hc hx => ?_, held := fun c q hq => ?_, logged := fun hpc c hc => ?_ }
  · by_cases hcb : c = b
    · simp [hcb] at hx
    · exact h.region c x hc (by simpa [hcb] using hx)
  · have hcb : c ≠ b := by
      intro hcb
      simp [hcb, hholder] at hq
    simpa [hcb] using h.held c q hq
  · obtain ⟨hcache, hpin⟩ := h.logged hpc c hc
    have hcb : c ≠ b := by
      intro hcb
      simp [hcb, hpins] at hpin
    refine ⟨?_, hpin⟩
    show update s.cache b none c = some (s.pending d0 c)
    rw [update_of_ne hcb]
    exact hcache

theorem diskInv_boot (hrec : Recoverable g s.disk (s.committed d0)) (hpc : s.pc = .readHead)
    (hcache : ∀ b, s.cache b = none) (hholder : ∀ b, s.holder b = none) (hlh : s.lh = [])
    (hcurrent : s.current = []) : DiskInv g d0 s := by
  refine ⟨hrec, by simp [Phase, hpc], ?_, ?_, hlh ▸ fits_nil g, by simp [hlh], by simp [hlh],
    by simp [hcurrent], fun _ _ => hcurrent⟩
  · intro b x _ hx
    simp [hcache] at hx
  · intro b p hp
    simp [hholder] at hp

theorem DiskInv.next [DecidableEq ι] [Fintype ι] (h : DiskInv g d0 s) (hctl : Control s)
    (he : Enabled g s e) : DiskInv g d0 (next g s e) := by
  cases e with
  | beginOp p => exact { h with }
  | bread p b => exact h.bread p b
  | modify p b d =>
    obtain ⟨hrun, hop, -, hb⟩ := he
    obtain ⟨o, ho⟩ := Option.ne_none_iff_exists'.mp hop
    exact h.modify (hctl.idle_of_op hrun hop) ho hb d
  | logWrite p b =>
    obtain ⟨hrun, hop, hholder, hb⟩ := he
    obtain ⟨o, ho⟩ := Option.ne_none_iff_exists'.mp hop
    exact h.logWrite (hctl.idle_of_op hrun hop) ho hholder hb
  | brelse p b => exact h.brelse b
  | evict b => exact h.evict he.1 he.2
  | endOp p => exact h.endOp hctl (hctl.idle_of_op he.1 he.2) p
  | commit => exact h.commit
  | recover => exact h.recover
  | crash => exact diskInv_boot h.recoverable rfl (fun _ => rfl) (fun _ => rfl) rfl rfl

-- An operation's updates are in the committed groups all together, in one of
-- them, or not at all.
def WholeOp (s : State ι) (o : Nat) : Prop :=
  (updatesOf o s.groups.flatten = updatesOf o s.issued ∧
    ∃ group ∈ s.groups, updatesOf o group = updatesOf o s.issued) ∨
  updatesOf o s.groups.flatten = []

structure OpInv (s : State ι) : Prop where
  whole : ∀ o, WholeOp s o
  -- an operation that is open, or has updates in the current group, has all of them there
  live : ∀ o, ((∃ p, s.op p = some o) ∨ updatesOf o s.current ≠ []) →
    updatesOf o s.groups.flatten = [] ∧ updatesOf o s.issued = updatesOf o s.current
  fresh : ∀ o, s.nextOp ≤ o → updatesOf o s.issued = [] ∧ updatesOf o s.current = [] ∧
    updatesOf o s.groups.flatten = []
  older : ∀ p o, s.op p = some o → o < s.nextOp

theorem OpInv.congr (h : OpInv s) (hop : ∀ p o, t.op p = some o → s.op p = some o)
    (hnext : t.nextOp = s.nextOp) (hissued : t.issued = s.issued) (hcurrent : t.current = s.current)
    (hgroups : t.groups = s.groups) : OpInv t where
  whole := by
    unfold WholeOp
    rw [hgroups, hissued]
    exact h.whole
  live := by
    intro o ho
    rw [hgroups, hissued, hcurrent]
    rw [hcurrent] at ho
    exact h.live o (ho.imp (fun ⟨p, hp⟩ => ⟨p, hop p o hp⟩) id)
  fresh := by
    rw [hgroups, hissued, hcurrent, hnext]
    exact h.fresh
  older := by
    intro p o hp
    rw [hnext]
    exact h.older p o (hop p o hp)

theorem updatesOf_concat (o o' : Nat) (us : List Update) (b : BlockNo) (d : Block) :
    updatesOf o (us ++ [⟨o', b, d⟩]) = updatesOf o us ++ if o' = o then [⟨o', b, d⟩] else [] := by
  simp only [updatesOf, List.filter_append, List.filter_cons, List.filter_nil, decide_eq_true_eq]

theorem OpInv.withUpdate (h : OpInv s) (hop : s.op p = some o) (b : BlockNo) (d : Block) :
    OpInv (s.withUpdate b d o) := by
  have hlive := h.live o (.inl ⟨p, hop⟩)
  have holder := h.older p o hop
  refine ⟨?_, ?_, ?_, h.older⟩
  · intro o'
    by_cases ho : o = o'
    · subst ho
      exact .inr hlive.1
    · have hissued : updatesOf o' (s.withUpdate b d o).issued = updatesOf o' s.issued := by
        simp [State.withUpdate, updatesOf_concat, ho]
      unfold WholeOp
      rw [hissued]
      exact h.whole o'
  · intro o' ho'
    by_cases ho : o = o'
    · subst ho
      simp only [State.withUpdate, updatesOf_concat, hlive, and_self]
    · simp only [State.withUpdate, updatesOf_concat, ho, if_false, List.append_nil] at ho' ⊢
      exact h.live o' ho'
  · intro o' ho'
    have ho : o ≠ o' := by
      intro ho
      have hle : s.nextOp ≤ o' := ho'
      omega
    simp only [State.withUpdate, updatesOf_concat, ho, if_false, List.append_nil]
    exact h.fresh o' ho'

theorem OpInv.beginOp [DecidableEq ι] (h : OpInv s) (p : ι) : OpInv (s.beginOp p) := by
  refine ⟨h.whole, ?_, ?_, ?_⟩
  · intro o ho
    rcases ho with ⟨q, hq⟩ | hcur
    · by_cases hqp : q = p
      · have hnew : s.nextOp = o := by simpa [State.beginOp, hqp] using hq
        obtain ⟨hissued, hcurrent, hgroups⟩ := h.fresh o (by omega)
        exact ⟨hgroups, hissued.trans hcurrent.symm⟩
      · exact h.live o (.inl ⟨q, by simpa [State.beginOp, hqp] using hq⟩)
    · exact h.live o (.inr hcur)
  · intro o ho
    have hle : s.nextOp + 1 ≤ o := ho
    exact h.fresh o (by omega)
  · intro q o hq
    show o < s.nextOp + 1
    by_cases hqp : q = p
    · have hnew : s.nextOp = o := by simpa [State.beginOp, hqp] using hq
      omega
    · have hold := h.older q o (by simpa [State.beginOp, hqp] using hq)
      omega

theorem OpInv.commitGroup {t : State ι} (h : OpInv s) (hop : ∀ p, t.op p = none)
    (hnext : t.nextOp = s.nextOp) (hissued : t.issued = s.issued) (hcurrent : t.current = [])
    (hgroups : t.groups = s.groups ++ [s.current]) : OpInv t := by
  have hflat : ∀ o, updatesOf o t.groups.flatten =
      updatesOf o s.groups.flatten ++ updatesOf o s.current := by
    intro o
    simp [hgroups, updatesOf]
  refine ⟨?_, ?_, ?_, ?_⟩
  · intro o
    unfold WholeOp
    rw [hflat, hissued]
    by_cases hcur : updatesOf o s.current = []
    · rw [hcur, List.append_nil]
      rcases h.whole o with ⟨hall, group, hmem, hgroup⟩ | hnone
      · exact .inl ⟨hall, group, by simp [hgroups, hmem], hgroup⟩
      · exact .inr hnone
    · obtain ⟨hnone, hall⟩ := h.live o (.inr hcur)
      rw [hnone, List.nil_append]
      exact .inl ⟨hall.symm, s.current, by simp [hgroups], hall.symm⟩
  · intro o ho
    rcases ho with ⟨p, hp⟩ | hcur
    · simp [hop] at hp
    · simp [hcurrent, updatesOf] at hcur
  · intro o ho
    obtain ⟨h1, h2, h3⟩ := h.fresh o (hnext ▸ ho)
    rw [hflat, hissued, hcurrent, h3, h2]
    exact ⟨h1, rfl, rfl⟩
  · intro p o hp
    simp [hop] at hp

theorem OpInv.crash (h : OpInv s) : OpInv s.crash := by
  refine ⟨h.whole, ?_, ?_, ?_⟩
  · intro o ho
    rcases ho with ⟨p, hp⟩ | hcur
    · simp [State.crash] at hp
    · simp [State.crash, updatesOf] at hcur
  · intro o ho
    obtain ⟨h1, -, h3⟩ := h.fresh o ho
    exact ⟨h1, rfl, h3⟩
  · intro p o hp
    simp [State.crash] at hp

theorem OpInv.commit [Fintype ι] (h : OpInv s) (hctl : Control s) : OpInv (s.commit g) := by
  fun_cases State.commit g s
  case case3 hpc _ => exact h.commitGroup (hctl.quiet (by simp [hpc]) (by simp [hpc])) rfl rfl rfl rfl
  all_goals exact h.congr (fun _ _ hp => hp) rfl rfl rfl rfl

theorem OpInv.recover (h : OpInv s) : OpInv (s.recover g) := by
  fun_cases State.recover g s <;> exact h.congr (fun _ _ hp => hp) rfl rfl rfl rfl

variable [DecidableEq ι] [Fintype ι]

theorem OpInv.endOp (h : OpInv s) (hctl : Control s) (hidle : s.pc = .idle) (p : ι) :
    OpInv (s.endOp p) := by
  have hop : ∀ q o, update s.op p none q = some o → s.op q = some o := by
    intro q o hq
    by_cases hqp : q = p
    · simp [hqp] at hq
    · simpa [hqp] using hq
  rcases s.endOp_cases p (hctl.not_committing hidle) with ⟨-, heq⟩ | ⟨-, heq⟩ <;>
    exact heq ▸ h.congr hop rfl rfl rfl rfl

theorem OpInv.next (h : OpInv s) (hctl : Control s) (he : Enabled g s e) :
    OpInv (next g s e) := by
  cases e with
  | beginOp p => exact h.beginOp p
  | bread p b | brelse p b | evict b => exact h.congr (fun _ _ hp => hp) rfl rfl rfl rfl
  | modify p b d =>
    obtain ⟨o, ho⟩ := Option.ne_none_iff_exists'.mp he.2.1
    show OpInv (s.modify p b d)
    rcases s.modify_cases p b d ho with ⟨-, heq⟩ | ⟨-, heq⟩
    · rw [heq]
      exact (h.withUpdate ho b d).congr (fun _ _ hp => hp) rfl rfl rfl rfl
    · rw [heq]
      exact h.congr (fun _ _ hp => hp) rfl rfl rfl rfl
  | logWrite p b =>
    obtain ⟨o, ho⟩ := Option.ne_none_iff_exists'.mp he.2.1
    show OpInv (s.logWrite g p b)
    rcases s.logWrite_cases p b ho with heq | ⟨-, heq⟩ | ⟨-, -, -, heq⟩
    · rw [heq]
      exact h.congr (fun _ _ hp => hp) rfl rfl rfl rfl
    · rw [heq]
      exact h.withUpdate ho b _
    · rw [heq]
      exact (h.withUpdate ho b _).congr (fun _ _ hp => hp) rfl rfl rfl rfl
  | endOp p => exact h.endOp hctl (hctl.idle_of_op he.1 he.2) p
  | commit => exact h.commit hctl
  | recover => exact h.recover
  | crash => exact h.crash

theorem inv_reach (hempty : decodeHead (d0 g.headBlock) = [])
    (h : Reach (Start d0) (Step g) s) : Control s ∧ DiskInv g d0 s ∧ OpInv s := by
  refine h.invariant (I := fun s => Control s ∧ DiskInv g d0 s ∧ OpInv s) ?_ ?_
  · intro s hs
    rw [hs]
    refine ⟨control_boot rfl (fun _ => rfl) rfl rfl, ?_, ?_⟩
    · exact diskInv_boot (recoverable_of_empty hempty fun _ _ => rfl) rfl (fun _ => rfl) (fun _ => rfl)
        rfl rfl
    · exact ⟨fun _ => .inr rfl, fun _ _ => ⟨rfl, rfl⟩, fun _ _ => ⟨rfl, rfl, rfl⟩,
        fun _ _ hp => absurd hp (by simp)⟩
  · intro s t _ ⟨hctl, hdisk, hops⟩ ⟨e, he, ht⟩
    rw [ht]
    exact ⟨hctl.next he, hdisk.next hctl he, hops.next hctl he⟩

-- Whatever was interrupted and however often, a recovery that gets to its end leaves at the home
-- blocks the committed groups and nothing else.
theorem recovered_eq_committed (hempty : decodeHead (d0 g.headBlock) = [])
    (h : Reach (Start d0) (Step g) s) (hpc : s.pc = .recoverClear) :
    (next g s .recover).pc = .idle ∧
    (∀ b, g.Home b → (next g s .recover).disk b = afterUpdates d0 s.groups.flatten b) ∧
    ∀ o, WholeOp s o := by
  obtain ⟨-, hdisk, hops⟩ := inv_reach hempty h
  have hafter : (next g s .recover).pc = .idle := by simp only [next, State.recover, hpc]
  have hgroups : (next g s .recover).groups = s.groups := by
    simp only [next, State.recover, hpc]
    rfl
  have hinv : DiskInv g d0 (next g s .recover) := hdisk.recover
  have hphase := hinv.phase
  simp only [Phase, hafter] at hphase
  refine ⟨hafter, ?_, hops.whole⟩
  intro b hb
  rw [hinv.recoverable.home_eq hphase hb, State.committed, hgroups]

def sampleGeometry : Geometry where
  logstart := 2
  nlog := 31
  pos := by decide
  fits := by decide

def sampleBoot : State (Fin 2) where
  disk := fun _ _ => 0
  cache := fun _ => none
  holder := fun _ => none
  pins := fun _ => 0
  lh := []
  outstanding := 0
  committing := false
  pc := .readHead
  op := fun _ => none
  nextOp := 0
  issued := []
  current := []
  groups := []

-- One operation commits; the system stops before any block is installed, and
-- again in the recovery after its one block write.
def sampleEvents : List (Event (Fin 2)) :=
  [.recover, .recover, .recover, .beginOp 0, .bread 0 50, .modify 0 50 (fun _ => 7), .logWrite 0 50,
    .brelse 0 50, .endOp 0, .commit, .commit, .commit, .crash, .recover, .recover, .crash,
    .recover, .recover, .recover]

theorem recovered_eq_committed_twice_interrupted :
    let s := sampleEvents.foldl (next sampleGeometry) sampleBoot
    s.pc = .recoverClear ∧ (next sampleGeometry s .recover).disk 50 0 = 7 ∧
    ∀ b, sampleGeometry.Home b →
      (next sampleGeometry s .recover).disk b = afterUpdates (fun _ _ => 0) s.groups.flatten b := by
  intro s
  have hempty : decodeHead ((fun _ _ => 0 : Disk) sampleGeometry.headBlock) = [] := by decide
  have hstart : Reach (Start fun _ _ => 0) (Step sampleGeometry) sampleBoot := .start rfl
  have hreach : Reach (Start fun _ _ => 0) (Step sampleGeometry) s :=
    hstart.foldl (fun _ e he => ⟨e, he, rfl⟩) (by decide +kernel)
  have hpc : s.pc = .recoverClear := by decide +kernel
  exact ⟨hpc, by decide +kernel, (recovered_eq_committed hempty hreach hpc).2.1⟩

end Xv6.Log
