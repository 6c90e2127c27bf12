import PipeANN.InsertProtocol

/-! # When concurrent inserts keep every record

`lostRecordRun_loses` shows that a call which rewrites a page without reading it
can destroy records another call committed there after the reservation.  This
module proves that nothing else can go wrong.  Call a call *blind* on a page when
it will rewrite the page and `alloc_loc` did not ask it to read it.  In every run
in which a call locks a page only when no other blind call is still waiting for
that page (`BlindLocksFirst`), every committed record stays on disk as it was last
written.

The proof follows the phases of a call.  `InsertOk` says what is true of one call
in its phase: which locks it holds, that its buffer of a page it has read agrees
with the disk outside its own slots, that the pages it has written hold its
records, and that no committed record is on a page it is blind on.
-/
namespace PipeANN
open List Function Reservation Option
namespace InsertState
variable {ρ : Type}

/-- The side condition on a step: a call may lock a page only if every other call
that is still waiting for this page will read it. -/
def BlindLocksFirst (s : InsertState ρ) : Action ρ → Prop
  | .start .. => True
  | .advance t => ∀ X p ps, s.inserts t = some X → X.phase = .lockPages (p :: ps) →
      ∀ t' Y todo, t' ≠ t → s.inserts t' = some Y → Y.phase = .lockPages todo → p ∈ todo →
        p ∈ Y.res.need

/-! ## What a call holds and has done -/

variable (m : DiskLayout) (X : Insert ρ)

/-- The call holds the lock of the page. -/
def HoldsPage (p : Nat) : Prop :=
  p ∈ X.res.rmwPages m ∧ match X.phase with
    | .lockPages todo => p ∉ todo
    | .unlockPages todo => p ∈ todo
    | _ => True

/-- The call holds the lock of the vector. -/
def HoldsVec (X : Insert ρ) (v : Nat) : Prop :=
  v ∈ X.res.ids ∧ match X.phase with
    | .lockPages _ | .unlockPages _ => False
    | .lockVecs todo => v ∉ todo
    | .unlockVecs todo => v ∈ todo
    | _ => True

/-- The call has read the page, if it was to. -/
def HasRead (X : Insert ρ) (p : Nat) : Prop :=
  match X.phase with
  | .readRmw todo => p ∉ todo
  | .modify | .write _ | .commit => True
  | _ => False

/-- The call has written the page and not committed yet. -/
def HasWritten (X : Insert ρ) (p : Nat) : Prop :=
  match X.phase with
  | .write todo => p ∉ todo
  | .commit => True
  | _ => False

/-- The loop lists are what is left of the lists they started from. -/
def TodoOk : Prop :=
  match X.phase with
  | .lockPages todo | .write todo | .unlockPages todo => todo <:+ X.res.rmwPages m
  | .unlockVecs todo => todo <:+ X.res.vecOrder
  | _ => True

/-- The call will rewrite the page unread. -/
def Blind (p : Nat) : Prop :=
  X.phase.uncommitted = true ∧ p ∈ X.res.rmwPages m ∧ p ∉ X.res.need

variable {m : DiskLayout} {ops : RecordOps ρ} {s s' : InsertState ρ} {t : Nat} {X Y : Insert ρ}

variable {p : Nat}

theorem HasRead.holds (h : HasRead X p) (hp : p ∈ X.res.rmwPages m) :
    HoldsPage m X p ∧ X.phase.uncommitted := by
  unfold HasRead at h
  unfold HoldsPage
  split at h <;> simp_all [Phase.uncommitted]

theorem HasWritten.holds (h : HasWritten X p) (hp : p ∈ X.res.rmwPages m) :
    HoldsPage m X p ∧ X.phase.writing := by
  unfold HasWritten at h
  unfold HoldsPage
  split at h <;> simp_all [Phase.writing]

variable {v : Nat}

theorem holdsVec_of_writing (h : X.phase.writing) (hv : v ∈ X.res.ids) : HoldsVec X v := by
  unfold Phase.writing at h
  unfold HoldsVec
  split at h <;> simp_all

variable {r res : Reservation} {l : Nat} {X' : Insert ρ} {ps : List Nat} {nbrBuf rmwBuf : Nat → ρ}
    {maps : IndexMap} {pageLock vecLock : Nat → Option Nat}

theorem page_mem_rmw (hl : l ∈ r.locs) : m.locSectorNo l ∈ r.rmwPages m :=
  mem_rmwPages.mpr ⟨l, hl, rfl⟩

/-- What is true of one call. -/
structure InsertOk (m : DiskLayout) (s : InsertState ρ) (t : Nat) (X : Insert ρ) : Prop where
  todo : TodoOk m X
  pages : ∀ p, HoldsPage m X p → s.pageLock p = some t
  vecs : ∀ v, HoldsVec X v → s.vecLock v = some t
  pending : X.phase.uncommitted = true → s.maps.pending t = some X.res
  /-- A page that was read agrees with the disk outside the call's own slots. -/
  buffer : ∀ l, HasRead X (m.locSectorNo l) → m.locSectorNo l ∈ X.res.rmwPages m →
    m.locSectorNo l ∈ X.res.need → l ∉ X.res.locs → X.rmwBuf l = s.disk l
  /-- A page that was written holds the call's records. -/
  wrote : ∀ l id, (l, id) ∈ X.res.locs.zip X.res.ids → HasWritten X (m.locSectorNo l) →
    s.disk l = s.written id
  /-- No committed record is on a page the call is blind on. -/
  blind : ∀ id l, s.maps.id2loc id = some l → ¬ Blind m X (m.locSectorNo l)

/-- **The invariant of the protocol.** -/
structure Inv (m : DiskLayout) (s : InsertState ρ) : Prop where
  each : ∀ t X, s.inserts t = some X → InsertOk m s t X
  /-- While a blind call waits for a page nobody else has locked it. -/
  first : ∀ t X t' Y todo p, s.inserts t = some X → s.inserts t' = some Y → t ≠ t' →
    X.phase = .lockPages todo → p ∈ todo → p ∉ X.res.need → Y.phase.uncommitted = true →
    ¬ HoldsPage m Y p
  /-- A committed record that no call is about to replace is on disk. -/
  stored : ∀ id l, s.maps.id2loc id = some l →
    (∀ t X, s.inserts t = some X → id ∈ X.res.ids → X.phase.writing = false) →
    s.disk l = s.written id

theorem inv_initial (npoints : Nat) (disk : Nat → ρ) : (initial m npoints disk).Inv m := by
  refine ⟨fun t X h => (by cases h), fun t X t' Y todo p h => (by cases h), fun id l hid _ => ?_⟩
  simp only [initial, IndexMap.identity] at hid ⊢
  split at hid
  · rw [some.inj hid]
  · cases hid

/-- Two calls that hold one page are one call. -/
theorem Inv.page_unique (hi : s.Inv m) {t t' : Nat} (hX : s.inserts t = some X)
    (hY : s.inserts t' = some Y) (h : HoldsPage m X p) (h' : HoldsPage m Y p) : t = t' :=
  some.inj (((hi.each t X hX).pages p h).symm.trans ((hi.each t' Y hY).pages p h'))

/-- What one call relies on, so that it does not notice the step of another. -/
theorem InsertOk.frame (hY : InsertOk m s t Y)
    (hpages : ∀ p, HoldsPage m Y p → s'.pageLock p = s.pageLock p)
    (hvecs : ∀ v, HoldsVec Y v → s'.vecLock v = s.vecLock v)
    (hpend : Y.phase.uncommitted → s'.maps.pending t = s.maps.pending t)
    (hdisk : ∀ l, HoldsPage m Y (m.locSectorNo l) → s'.disk l = s.disk l)
    (hwritten : ∀ v, HoldsVec Y v → s'.written v = s.written v)
    (hblind : ∀ id l, s'.maps.id2loc id = some l → ¬ Blind m Y (m.locSectorNo l)) :
    InsertOk m s' t Y := by
  refine ⟨hY.todo, fun p hp => (hpages p hp).trans (hY.pages p hp),
    fun v hv => (hvecs v hv).trans (hY.vecs v hv), fun hu => (hpend hu).trans (hY.pending hu),
    fun l hread hrmw hneed hl => ?_, fun l id hz hw => ?_, hblind⟩
  · rw [hdisk l (hread.holds hrmw).1]
    exact hY.buffer l hread hrmw hneed hl
  · obtain ⟨hl, hid⟩ := of_mem_zip hz
    obtain ⟨hp, hwr⟩ := hw.holds (page_mem_rmw hl)
    rw [hdisk l hp, hwritten id (holdsVec_of_writing hwr hid)]
    exact hY.wrote l id hz hw

/-- The modification touches the call's own slots only. -/
theorem modify_of_not_mem (s : InsertState ρ) (hl : l ∉ X.res.locs) :
    modify m ops s X l = X.rmwBuf l := by
  refine foldlRecOn (motive := fun buf : Nat → ρ => buf l = X.rmwBuf l) _ _ ?_
    fun buf hbuf p hp => ?_
  · cases hloc : X.res.locs[X.res.nbrs.length]? with
    | some loc => exact update_of_ne (fun he : l = loc => hl (he ▸ mem_of_getElem? hloc)) _ _
    | none => rfl
  · exact (update_of_ne (fun he : l = p.2 => hl (he ▸ (of_mem_zip hp).2)) _ _).trans hbuf

/-- The history variable after a page write, id by id. -/
theorem foldl_written {c : Nat → Prop} [DecidablePred c] {v w : Nat → ρ} {ps : List (Nat × Nat)}
    (hnd : (ps.map Prod.snd).Nodup) :
    (∀ id, id ∉ ps.map Prod.snd →
      ps.foldl (fun w p => if c p.1 then update w p.2 (v p.1) else w) w id = w id) ∧
    ∀ l id, (l, id) ∈ ps → ps.foldl (fun w p => if c p.1 then update w p.2 (v p.1) else w) w id
        = if c l then v l else w id := by
  have hfilter : ps.foldl (fun w p => if c p.1 then update w p.2 (v p.1) else w) w =
      (ps.filter (c ·.1)).foldl (fun w p => update w p.2 (v p.1)) w := by simp [foldl_filter]
  rw [hfilter]
  refine ⟨fun id hid => LastWrites.foldl_update_of_forall_ne fun p hp he =>
    hid (he ▸ mem_map_of_mem (mem_filter.mp hp).1), fun l id hmem => ?_⟩
  split_ifs with hc
  · exact LastWrites.foldl_update_of_nodup Prod.snd (hnd.sublist (filter_sublist.map _))
      (mem_filter.mpr ⟨hmem, decide_eq_true hc⟩)
  · refine LastWrites.foldl_update_of_forall_ne fun p hp he => ?_
    obtain ⟨hp, hcp⟩ := mem_filter.mp hp
    rw [inj_on_of_nodup_map hnd hp hmem he] at hcp
    exact hc (of_decide_eq_true hcp)

theorem nodup_ids (h : maps.PendingOk r) : r.ids.Nodup := by
  refine nodup_append.mpr ⟨h.nbrsNodup, nodup_singleton _, fun a ha b hb hab => ?_⟩
  exact h.nbrsCommitted a ha (hab.trans (mem_singleton.mp hb) ▸ h.targetNew)

theorem map_snd_zip_ids (h : maps.PendingOk r) : (r.locs.zip r.ids).map Prod.snd = r.ids :=
  map_snd_zip (by simp [ids, h.length])

/-! ## One step -/

section Step
variable (hi : s.Inv m)
include hi

section
variable (hX : s.inserts t = some X)
include hX

/-- A record that neither the call of `t` nor another is about to replace is on disk. -/
theorem Inv.disk_eq {id : Nat} (hid : s.maps.id2loc id = some l)
    (hno : ∀ t' Y, t' ≠ t → s.inserts t' = some Y → id ∈ Y.res.ids → Y.phase.writing = false)
    (hown : id ∈ X.res.ids → X.phase.writing = false) : s.disk l = s.written id := by
  refine hi.stored id l hid fun t' Y hY hmem => ?_
  by_cases hne : t' = t <;> grind

/-- Assemble the invariant after a step of `t` that turns its call from `X` into
`X'`, from what the step does to this call and to the others. -/
theorem Inv.of_call (hins : s'.inserts = update s.inserts t (some X')) (hres : X'.res = X.res)
    (hwait : ∀ todo', X'.phase = .lockPages todo' →
      ∃ todo, X.phase = .lockPages todo ∧ ∀ p ∈ todo', p ∈ todo)
    (hhold : ∀ p, X'.phase.uncommitted → HoldsPage m X' p →
      (X.phase.uncommitted ∧ HoldsPage m X p) ∨
      ∀ t' Y todo, t' ≠ t → s.inserts t' = some Y → Y.phase = .lockPages todo → p ∈ todo →
        p ∈ Y.res.need)
    (hown : InsertOk m s' t X')
    (hothers : ∀ t' Y, t' ≠ t → s.inserts t' = some Y → InsertOk m s' t' Y)
    (hstored : ∀ id l, s'.maps.id2loc id = some l →
      (∀ t' Y, t' ≠ t → s.inserts t' = some Y → id ∈ Y.res.ids → Y.phase.writing = false) →
      (id ∈ X.res.ids → X'.phase.writing = false) → s'.disk l = s'.written id) :
    s'.Inv m := by
  have hins' : ∀ t', s'.inserts t' = if t' = t then some X' else s.inserts t' := fun t' => by
    rw [hins, update_apply]
  refine ⟨fun t' Z hZ => ?_, fun t₁ X₁ t₂ X₂ todo p h₁ h₂ hne hph hp hneed hunc hh => ?_,
    fun id l hid hno => hstored id l hid (fun t' Y hne hY => ?_) fun hmem => ?_⟩
  · rw [hins'] at hZ
    split_ifs at hZ with ht
    · cases hZ
      exact ht ▸ hown
    · exact hothers t' Z ht hZ
  · rw [hins'] at h₁ h₂
    split_ifs at h₁ h₂ with hw hh' hh'
    · exact absurd (hw.trans hh'.symm) hne
    · cases h₁
      obtain ⟨todo₀, hph₀, hsub⟩ := hwait todo hph
      exact hi.first t X t₂ X₂ todo₀ p hX h₂ (Ne.symm hh') hph₀ (hsub p hp) (hres ▸ hneed) hunc hh
    · cases h₂
      rcases hhold p hunc hh with ⟨hu, hold⟩ | hall
      · exact hi.first t₁ X₁ t X todo p h₁ hX hw hph hp hneed hu hold
      · exact hneed (hall t₁ X₁ todo hw h₁ hph hp)
    · exact hi.first t₁ X₁ t₂ X₂ todo p h₁ h₂ hne hph hp hneed hunc hh
  · exact hno t' Y (by rw [hins', if_neg hne, hY])
  · exact hno t X' (by rw [hins', if_pos rfl]) (hres ▸ hmem)

variable (hres : X'.res = X.res) (hunc : X'.phase.uncommitted = X.phase.uncommitted)
    (hwriting : X'.phase.writing = false → X.phase.writing = false) (htodo : TodoOk m X')
    (hvec : ∀ v, HoldsVec X' v → vecLock v = some t)
    (hbuf : ∀ l, HasRead X' (m.locSectorNo l) → m.locSectorNo l ∈ X.res.rmwPages m →
      m.locSectorNo l ∈ X.res.need → l ∉ X.res.locs → X'.rmwBuf l = s.disk l)
    (hwr : ∀ p ∈ X.res.rmwPages m, HasWritten X' p → HasWritten X p)
    (hvec' : ∀ v, s.vecLock v ≠ none → s.vecLock v ≠ some t → vecLock v = s.vecLock v)
include hres hunc hwriting htodo hvec hbuf hwr hvec'

/-- A step that leaves the maps, the disk and the history alone. -/
theorem Inv.of_quiet (hwait : ∀ todo', X'.phase = .lockPages todo' →
      ∃ todo, X.phase = .lockPages todo ∧ ∀ p ∈ todo', p ∈ todo)
    (hhold : ∀ p, HoldsPage m X' p → HoldsPage m X p ∨
      ∀ t' Y todo, t' ≠ t → s.inserts t' = some Y → Y.phase = .lockPages todo → p ∈ todo →
        p ∈ Y.res.need)
    (hpage : ∀ p, HoldsPage m X' p → pageLock p = some t)
    (hpage' : ∀ p, s.pageLock p ≠ none → s.pageLock p ≠ some t → pageLock p = s.pageLock p) :
    Inv m { s.setInsert t X' with pageLock := pageLock, vecLock := vecLock } := by
  have hXok := hi.each t X hX
  refine hi.of_call hX rfl hres hwait
    (fun p hu hh => (hhold p hh).imp_left fun h => ⟨hunc ▸ hu, h⟩) ?_ (fun t' Y hne hY => ?_)
    fun id l hid hno hown => hi.disk_eq hX hid hno fun hmem => hwriting (hown hmem)
  · refine ⟨htodo, hpage, hvec, fun hu => hres ▸ hXok.pending (hunc ▸ hu),
      fun l hr hp hn hl => hbuf l hr (hres ▸ hp) (hres ▸ hn) (hres ▸ hl), fun l id hz hw => ?_,
      fun id l hid hb => ?_⟩
    · rw [hres] at hz
      exact hXok.wrote l id hz (hwr _ (page_mem_rmw (of_mem_zip hz).1) hw)
    · rw [Blind, hres] at hb
      exact hXok.blind id l hid ⟨hunc ▸ hb.1, hb.2⟩
  · have hYok := hi.each t' Y hY
    refine hYok.frame (fun p hp => ?_) (fun v hv => ?_) (fun _ => rfl) (fun _ _ => rfl)
      (fun _ _ => rfl) hYok.blind
    · have := hYok.pages p hp
      exact hpage' p (by simp [this]) (by simp [this, hne])
    · have := hYok.vecs v hv
      exact hvec' v (by simp [this]) (by simp [this, hne])

/-- Such a step of a call that neither waits for a page nor locks or unlocks one. -/
theorem Inv.of_held (hwait : ∀ todo, X'.phase ≠ .lockPages todo)
    (hhold : ∀ p, HoldsPage m X' p → HoldsPage m X p) :
    Inv m { s.setInsert t X' with vecLock := vecLock } :=
  hi.of_quiet hX hres hunc hwriting htodo hvec hbuf hwr hvec'
    (fun todo h => absurd h (hwait todo)) (fun p hp => .inl (hhold p hp))
    (fun p hp => (hi.each t X hX).pages p (hhold p hp)) (fun _ _ _ => rfl)

end

theorem inv_lockPage (hX : s.inserts t = some ⟨res, .lockPages (p :: ps), nbrBuf, rmwBuf⟩)
    (hfree : s.pageLock p = none) (hok : BlindLocksFirst s (.advance t)) :
    Inv m { s.setInsert t ⟨res, .lockPages ps, nbrBuf, rmwBuf⟩ with
      pageLock := update s.pageLock p (some t) } := by
  have hXok := hi.each t _ hX
  have hwaits := hok _ p ps hX rfl
  have hold : ∀ q, q ∈ res.rmwPages m ∧ q ∉ ps →
      q = p ∨ HoldsPage m ⟨res, .lockPages (p :: ps), nbrBuf, rmwBuf⟩ q := fun q hq =>
    or_iff_not_imp_left.mpr fun h => ⟨hq.1, not_mem_cons_of_ne_of_not_mem h hq.2⟩
  refine hi.of_quiet hX rfl rfl id ((suffix_cons p ps).trans hXok.todo) (fun v hv => hv.2.elim)
    (fun l hl => hl.elim) (fun q _ hq => hq.elim) (fun v _ _ => rfl) ?_ (fun q hq => ?_)
    (fun q hq => ?_) ?_
  · rintro _ ⟨⟩
    exact ⟨p :: ps, rfl, fun q hq => mem_cons_of_mem _ hq⟩
  · rcases hold q hq with rfl | h
    · exact .inr hwaits
    · exact .inl h
  · have hlock := hXok.pages q
    grind [hold q hq]
  · grind

theorem inv_lockVec {vs : List Nat}
    (hX : s.inserts t = some ⟨res, .lockVecs (v :: vs), nbrBuf, rmwBuf⟩)
    (hfree : s.vecLock v = none) :
    Inv m { s.setInsert t ⟨res, .lockVecs vs, nbrBuf, rmwBuf⟩ with
      vecLock := update s.vecLock v (some t) } := by
  have hXok := hi.each t _ hX
  refine hi.of_held hX rfl rfl id trivial ?_ (fun l hl => hl.elim) (fun q _ hq => hq.elim) ?_
    (fun _ h => by cases h) (fun _ h => h)
  · rintro w ⟨hw, hws⟩
    have hlock := hXok.vecs w
    grind [HoldsVec]
  · grind

theorem inv_readNbr {buf : Nat → ρ}
    (hX : s.inserts t = some ⟨res, .readNbrs (p :: ps), nbrBuf, rmwBuf⟩) :
    Inv m (s.setInsert t ⟨res, .readNbrs ps, buf, rmwBuf⟩) :=
  hi.of_held hX rfl rfl id trivial (hi.each t _ hX).vecs (fun l hl => hl.elim)
    (fun q _ hq => hq.elim) (fun _ _ _ => rfl) (fun _ h => by cases h) (fun _ h => h)

theorem inv_readRmw (hX : s.inserts t = some ⟨res, .readRmw (p :: ps), nbrBuf, rmwBuf⟩) :
    Inv m (s.setInsert t ⟨res, .readRmw ps, nbrBuf, copyPage m p s.disk rmwBuf⟩) := by
  have hXok := hi.each t _ hX
  refine hi.of_held hX rfl rfl id trivial hXok.vecs (fun l hl hrmw hneed hno => ?_)
    (fun q _ hq => hq.elim) (fun _ _ _ => rfl) (fun _ h => by cases h) (fun _ h => h)
  change copyPage m p s.disk rmwBuf l = s.disk l
  unfold copyPage
  split_ifs with he
  · rfl
  · exact hXok.buffer l (not_mem_cons_of_ne_of_not_mem he hl) hrmw hneed hno

theorem inv_modify (hX : s.inserts t = some ⟨res, .modify, nbrBuf, rmwBuf⟩) :
    Inv m (s.setInsert t ⟨res, .write (res.rmwPages m), nbrBuf,
      modify m ops s ⟨res, .modify, nbrBuf, rmwBuf⟩⟩) := by
  have hXok := hi.each t _ hX
  exact hi.of_held hX rfl rfl (fun h => by cases h) (suffix_refl _) hXok.vecs
    (fun l _ hrmw hneed hno => (modify_of_not_mem s hno).trans
      (hXok.buffer l trivial hrmw hneed hno))
    (fun q hq hw => absurd hq hw) (fun _ _ _ => rfl) (fun _ h => by cases h) (fun _ h => h)

theorem inv_unlockVec {vs : List Nat}
    (hX : s.inserts t = some ⟨res, .unlockVecs (v :: vs), nbrBuf, rmwBuf⟩) :
    Inv m { s.setInsert t ⟨res, .unlockVecs vs, nbrBuf, rmwBuf⟩ with
      vecLock := update s.vecLock v none } := by
  have hXok := hi.each t _ hX
  have hsuf : v :: vs <:+ res.vecOrder := hXok.todo
  have hnd : (v :: vs).Nodup := (nodup_sortedSet _).sublist hsuf.sublist
  have hv : v ∈ res.ids := mem_sortedSet.mp (hsuf.subset mem_cons_self)
  have hlock : s.vecLock v = some t := hXok.vecs v ⟨hv, mem_cons_self⟩
  refine hi.of_held hX rfl rfl id ((suffix_cons v vs).trans hsuf) ?_ (fun l hl => hl.elim)
    (fun q _ hq => hq.elim) ?_ (fun _ h => by cases h) (fun _ h => h)
  · rintro w ⟨hw, hws⟩
    have hne : w ≠ v := fun he => (nodup_cons.mp hnd).1 (he ▸ hws)
    exact (update_of_ne hne _ _).trans (hXok.vecs w ⟨hw, mem_cons_of_mem _ hws⟩)
  · grind

theorem inv_unlockPage (hX : s.inserts t = some ⟨res, .unlockPages (p :: ps), nbrBuf, rmwBuf⟩) :
    Inv m { s.setInsert t ⟨res, .unlockPages ps, nbrBuf, rmwBuf⟩ with
      pageLock := update s.pageLock p none } := by
  have hXok := hi.each t _ hX
  have hsuf : p :: ps <:+ res.rmwPages m := hXok.todo
  have hnd : (p :: ps).Nodup := (nodup_sortedSet _).sublist hsuf.sublist
  have hlock : s.pageLock p = some t :=
    hXok.pages p ⟨hsuf.subset mem_cons_self, mem_cons_self⟩
  have hold : ∀ q, HoldsPage m ⟨res, .unlockPages ps, nbrBuf, rmwBuf⟩ q →
      HoldsPage m ⟨res, .unlockPages (p :: ps), nbrBuf, rmwBuf⟩ q :=
    fun q hq => ⟨hq.1, mem_cons_of_mem _ hq.2⟩
  refine hi.of_quiet hX rfl rfl id ((suffix_cons p ps).trans hsuf) (fun v hv => hv.2.elim)
    (fun l hl => hl.elim) (fun q _ hq => hq.elim) (fun q _ _ => rfl) (fun _ h => by cases h)
    (fun q hq => .inl (hold q hq)) (fun q hq => ?_) (fun q _ hq => ?_)
  · have hne : q ≠ p := fun he => (nodup_cons.mp hnd).1 (he ▸ hq.2)
    exact (update_of_ne hne _ _).trans (hXok.pages q (hold q hq))
  · grind

theorem inv_turn {ph : Phase} (hX : s.inserts t = some X)
    (hph : nextPhase m s X X.phase = some ph) : Inv m (s.setInsert t { X with phase := ph }) := by
  have hXok := hi.each t X hX
  -- the two lists that start with the turn are the full ones
  have hwhole : TodoOk m { X with phase := ph } ∧ ph.uncommitted = X.phase.uncommitted ∧
      (ph.writing = false → X.phase.writing = false) ∧ (∀ todo, ph ≠ .lockPages todo) ∧
      (∀ q, HoldsPage m { X with phase := ph } q → HoldsPage m X q) ∧
      (∀ v, HoldsVec { X with phase := ph } v → HoldsVec X v) ∧
      (∀ q ∈ X.res.rmwPages m, q ∈ X.res.need → HasRead { X with phase := ph } q → HasRead X q) ∧
      ∀ q, HasWritten { X with phase := ph } q → HasWritten X q := by
    unfold nextPhase at hph
    split at hph <;> rename_i hphX <;> cases hph
    all_goals simp +contextual [hphX, TodoOk, Phase.uncommitted, Phase.writing, HoldsPage,
      HoldsVec, HasRead, HasWritten, vecOrder]
  obtain ⟨htodo, hunc, hwriting, hwait, hold, hvec, hread, hwr⟩ := hwhole
  exact hi.of_held hX rfl hunc hwriting htodo (fun v hv => hXok.vecs v (hvec v hv))
    (fun l hl hrmw hneed hno => hXok.buffer l (hread _ hrmw hneed hl) hrmw hneed hno)
    (fun q _ hq => hwr q hq) (fun _ _ _ => rfl) hwait hold

theorem inv_done (hX : s.inserts t = some X) (hph : X.phase = .unlockPages []) :
    Inv m { s with inserts := update s.inserts t none } := by
  have hother : ∀ {t' Z}, update s.inserts t none t' = some Z → s.inserts t' = some Z := by
    grind
  refine ⟨fun t' Y hY => ?_, fun t₁ X₁ t₂ X₂ todo p h₁ h₂ => ?_, fun id l hid hno => ?_⟩
  · have hYok := hi.each t' Y (hother hY)
    exact hYok.frame (fun _ _ => rfl) (fun _ _ => rfl) (fun _ => rfl) (fun _ _ => rfl)
      (fun _ _ => rfl) hYok.blind
  · exact hi.first t₁ X₁ t₂ X₂ todo p (hother h₁) (hother h₂)
  · exact hi.disk_eq hX hid (fun t' Y hne hY => hno t' Y ((update_of_ne hne _ _).trans hY))
      fun _ => by rw [hph]; rfl

/-! ## The page write -/

/-- **A page write changes no committed record.**  If the call read the page, its
buffer has the record; if not, there is none. -/
theorem write_keeps (hm : s.maps.Inv m)
    (hX : s.inserts t = some ⟨res, .write (p :: ps), nbrBuf, rmwBuf⟩) {id : Nat}
    (hid : s.maps.id2loc id = some l) : copyPage m p rmwBuf s.disk l = s.disk l := by
  have hXok := hi.each t _ hX
  have hpend := hm.pending t res (hXok.pending rfl)
  have hp : p ∈ res.rmwPages m := IsSuffix.subset hXok.todo mem_cons_self
  unfold copyPage
  split_ifs with hl
  · by_cases hneed : p ∈ res.need
    · have hno : l ∉ res.locs := fun hm' => by
        have := (hpend.reserved l hm').1.symm.trans ((hm.inverse id l).mp hid).1
        cases this
      exact hXok.buffer l trivial (hl ▸ hp) (hl ▸ hneed) hno
    · exact absurd ⟨rfl, hl ▸ hp, hl ▸ hneed⟩ (hXok.blind id l hid)
  · rfl

theorem inv_write (hm : s.maps.Inv m)
    (hX : s.inserts t = some ⟨res, .write (p :: ps), nbrBuf, rmwBuf⟩) :
    Inv m { s.setInsert t ⟨res, .write ps, nbrBuf, rmwBuf⟩ with
      disk := copyPage m p rmwBuf s.disk
      written := recordWritten m p ⟨res, .write (p :: ps), nbrBuf, rmwBuf⟩ s.written } := by
  have hXok := hi.each t _ hX
  have hpend := hm.pending t res (hXok.pending rfl)
  have hsuf : p :: ps <:+ res.rmwPages m := hXok.todo
  have hp : HoldsPage m ⟨res, .write (p :: ps), nbrBuf, rmwBuf⟩ p :=
    ⟨hsuf.subset mem_cons_self, trivial⟩
  obtain ⟨hwr_other, hwr_own⟩ := foldl_written (c := fun l => m.locSectorNo l = p)
    (by rw [map_snd_zip_ids hpend]; exact nodup_ids hpend)
  rw [map_snd_zip_ids hpend] at hwr_other
  refine hi.of_call hX rfl rfl (fun _ h => by cases h) (fun q _ hq => .inl ⟨rfl, hq⟩) ?_ ?_ ?_
  · refine ⟨(suffix_cons p ps).trans hsuf, hXok.pages, hXok.vecs, hXok.pending,
      fun l _ hrmw hneed hno => ?_, fun l id hz hw => ?_, hXok.blind⟩
    · change rmwBuf l = copyPage m p rmwBuf s.disk l
      unfold copyPage
      split_ifs
      · rfl
      · exact hXok.buffer l trivial hrmw hneed hno
    · refine Eq.trans ?_ (hwr_own l id hz).symm
      change copyPage m p rmwBuf s.disk l = _
      unfold copyPage
      split_ifs with hl
      · rfl
      · exact hXok.wrote l id hz (not_mem_cons_of_ne_of_not_mem hl hw)
  · intro t' Y hne hY
    have hYok := hi.each t' Y hY
    refine hYok.frame (fun _ _ => rfl) (fun _ _ => rfl) (fun _ => rfl) (fun l hl => ?_)
      (fun v hv => hwr_other v fun hmem => ?_) hYok.blind
    · have hnp : m.locSectorNo l ≠ p := fun he => hne (hi.page_unique hY hX hl (he ▸ hp))
      exact if_neg hnp
    · exact hne (some.inj ((hYok.vecs v hv).symm.trans (hXok.vecs v ⟨hmem, trivial⟩)))
  · intro id l hid hno hown
    have hmem : id ∉ res.ids := fun h => Bool.noConfusion (hown h)
    have hdisk := hi.disk_eq hX hid hno fun h => absurd h hmem
    exact (write_keeps hi hm hX hid).trans (hdisk.trans (hwr_other id hmem).symm)

end Step

/-! ## Commit and start -/

/-- A call that has not committed and does not hold one of its pages waits for it. -/
theorem waits_of_not_holds (hu : X.phase.uncommitted) (hp : p ∈ X.res.rmwPages m)
    (hh : ¬ HoldsPage m X p) : ∃ todo, X.phase = .lockPages todo ∧ p ∈ todo := by
  cases hph : X.phase with
  | lockPages todo => exact ⟨todo, rfl, by simpa [HoldsPage, hph, hp] using hh⟩
  | unlockVecs | unlockPages => simp [hph, Phase.uncommitted] at hu
  | _ => exact absurd ⟨hp, by simp [hph]⟩ hh

section Packed
variable (hnpp : 0 < m.nnodesPerSector) {disk : Nat → ρ}
include hnpp

theorem inv_commit {maps : IndexMap} (hi : s.Inv m) (hm : s.maps.Inv m)
    (hX : s.inserts t = some ⟨res, .commit, nbrBuf, rmwBuf⟩) (hc : s.maps.commit m t = some maps) :
    Inv m { s.setInsert t ⟨res, .unlockVecs res.vecOrder, nbrBuf, rmwBuf⟩ with
      maps := maps } := by
  have hXok := hi.each t _ hX
  have hp : s.maps.pending t = some res := hXok.pending rfl
  obtain ⟨r, hr, rfl⟩ := map_eq_some_iff.mp hc
  obtain rfl : res = r := some.inj (hp.symm.trans hr)
  have hpend := hm.pending t res hp
  obtain ⟨-, hids⟩ := exists_zip hpend.length
  have hcom := IndexMap.commitMaps_spec hnpp hm hp
  -- where a record is after the commit
  have hcases : ∀ id l, (IndexMap.commitMaps m res s.maps).2 id = some l →
      (l, id) ∈ res.locs.zip res.ids ∨ id ∉ res.ids ∧ s.maps.id2loc id = some l := by
    intro id l hid
    by_cases hmem : id ∈ res.ids
    · obtain ⟨l', hl'⟩ := hids id hmem
      obtain rfl : l' = l := some.inj ((hcom.moved l' id hl').1.symm.trans hid)
      exact .inl hl'
    · exact .inr ⟨hmem, (hcom.others id hmem).symm.trans hid⟩
  refine hi.of_call hX rfl rfl (fun _ h => by cases h) (fun _ h => by cases h) ?_ ?_ ?_
  · exact ⟨suffix_refl _, hXok.pages, fun v hv => hXok.vecs v ⟨hv.1, trivial⟩,
      fun h => (by cases h), fun l h => h.elim, fun l id _ h => h.elim,
      fun id l _ h => by cases h.1⟩
  · intro t' Y hne hY
    have hYok := hi.each t' Y hY
    refine hYok.frame (fun _ _ => rfl) (fun _ _ => rfl)
      (fun _ => update_of_ne hne _ _) (fun _ _ => rfl) (fun _ _ => rfl)
      (fun id l hid hb => ?_)
    rcases hcases id l hid with hz | ⟨-, hold⟩
    · have hXp : HoldsPage m ⟨res, .commit, nbrBuf, rmwBuf⟩ (m.locSectorNo l) :=
        ⟨page_mem_rmw (of_mem_zip hz).1, trivial⟩
      by_cases hYp : HoldsPage m Y (m.locSectorNo l)
      · exact hne (hi.page_unique hY hX hYp hXp)
      · obtain ⟨todo, hphY, htodo⟩ := waits_of_not_holds hb.1 hb.2.1 hYp
        exact hi.first t' Y t _ todo _ hY hX hne hphY htodo hb.2.2 rfl hXp
    · exact hYok.blind id l hold hb
  · intro id l hid hno _
    rcases hcases id l hid with hz | ⟨hmem, hold⟩
    · exact hXok.wrote l id hz trivial
    · exact hi.disk_eq hX hold hno fun h => absurd h hmem

theorem inv_start {target : Nat} {nbrs hints : List Nat} {junk : Nat → ρ} (hi : s.Inv m)
    (hm : s.maps.Inv m) (h : step m ops s (.start t target nbrs hints junk) = some s') :
    s'.Inv m := by
  obtain ⟨maps, r, hnone, hres, hpend, rfl⟩ := start_cases h
  obtain ⟨slots, locs, need, halloc, -, -, -, -, rfl⟩ := IndexMap.reserve_cases hres
  have hr := reserved_of_allocLoc hnpp (Nat.succ_pos _) hm.wf halloc
  obtain rfl : ⟨target, nbrs, locs, need⟩ = r := by simpa using hpend
  -- nobody uses a slot of a page the new call is blind on
  have hblind : ∀ l, m.locSectorNo l ∈ rmwPages m ⟨target, nbrs, locs, need⟩ →
      m.locSectorNo l ∉ need → s.maps.slots.loc2id l ≠ .invalid → s.maps.slots.curLoc ≤ l := by
    intro l hl hneed huse
    obtain ⟨l₀, hl₀, he⟩ := mem_rmwPages.mp hl
    exact (hr.blind l₀ hl₀ (he ▸ hneed) l he.symm).resolve_left huse
  have hused : ∀ l, s.maps.slots.loc2id l ≠ .invalid → l < s.maps.slots.curLoc →
      ¬ (m.locSectorNo l ∈ rmwPages m ⟨target, nbrs, locs, need⟩ ∧
        m.locSectorNo l ∉ need) := fun l huse hlt hl =>
    not_le.mpr hlt (hblind l hl.1 hl.2 huse)
  refine ⟨fun t' Y hY => ?_, fun t₁ X₁ t₂ X₂ todo p h₁ h₂ hne hph hp hneed hunc hh => ?_,
    fun id l hid hno => hi.stored id l hid fun t' Y hY hmem => ?_⟩
  · dsimp only [setInsert] at hY
    rw [update_apply] at hY
    split_ifs at hY with ht
    · cases hY
      subst ht
      refine ⟨suffix_refl _, fun q hq => absurd hq.1 hq.2, fun v hv => hv.2.elim,
        fun _ => update_self .., fun l h => h.elim, fun l id _ h => h.elim,
        fun id l hid hb => ?_⟩
      obtain ⟨huse, hlt⟩ := (hm.inverse id l).mp hid
      exact hused l (by rw [huse]; exact SlotId.noConfusion) hlt hb.2
    · have hYok := hi.each t' Y hY
      exact hYok.frame (fun _ _ => rfl) (fun _ _ => rfl)
        (fun _ => update_of_ne ht _ _) (fun _ _ => rfl) (fun _ _ => rfl) hYok.blind
  · dsimp only [setInsert] at h₁ h₂
    rw [update_apply] at h₁ h₂
    split_ifs at h₁ h₂ with hw hh' hh'
    · exact absurd (hw.trans hh'.symm) hne
    · cases h₁
      cases hph
      obtain ⟨l, hl, rfl⟩ := mem_rmwPages.mp hh.1
      obtain ⟨huse, hlt⟩ := (hm.pending t₂ X₂.res ((hi.each t₂ X₂ h₂).pending hunc)).reserved l hl
      exact hused l (by rw [huse]; exact SlotId.noConfusion) hlt ⟨hp, hneed⟩
    · cases h₂
      exact hh.2 hh.1
    · exact hi.first t₁ X₁ t₂ X₂ todo p h₁ h₂ hne hph hp hneed hunc hh
  · have hne : t' ≠ t := fun he => by rw [he, hnone] at hY; cases hY
    exact hno t' Y ((update_of_ne hne _ _).trans hY) hmem

/-- **One step preserves the invariant**, if blind calls lock first. -/
theorem inv_step {a : Action ρ} (hi : s.Inv m) (hm : s.maps.Inv m) (hok : BlindLocksFirst s a)
    (h : step m ops s a = some s') : s'.Inv m := by
  cases a with
  | start t target nbrs hints junk => exact inv_start hnpp hi hm h
  | advance t =>
    obtain ⟨⟨res, phase, nbrBuf, rmwBuf⟩, hX, h⟩ := Option.bind_eq_some_iff.mp h
    revert h
    fun_cases advance with
    | case1 p ps hph hfree =>
      cases hph
      rintro ⟨⟩
      exact inv_lockPage hi hX hfree hok
    | case3 v vs hph hfree =>
      cases hph
      rintro ⟨⟩
      exact inv_lockVec hi hX hfree
    | case5 p ps hph =>
      cases hph
      rintro ⟨⟩
      exact inv_readNbr hi hX
    | case6 p ps hph =>
      cases hph
      rintro ⟨⟩
      exact inv_readRmw hi hX
    | case7 hph =>
      cases hph
      rintro ⟨⟩
      exact inv_modify hi hX
    | case8 p ps hph =>
      cases hph
      rintro ⟨⟩
      exact inv_write hi hm hX
    | case9 hph =>
      cases hph
      intro h
      obtain ⟨maps, hc, rfl⟩ := Option.map_eq_some_iff.mp h
      exact inv_commit hnpp hi hm hX hc
    | case10 v vs hph =>
      cases hph
      rintro ⟨⟩
      exact inv_unlockVec hi hX
    | case11 p ps hph =>
      cases hph
      rintro ⟨⟩
      exact inv_unlockPage hi hX
    | case12 hph =>
      rintro ⟨⟩
      exact inv_done hi hX hph
    | case13 =>
      intro h
      obtain ⟨ph, hph, rfl⟩ := Option.map_eq_some_iff.mp h
      exact inv_turn hi hX hph
    | _ => exact fun h => by cases h

/-! ## Whole runs -/

omit hnpp in
/-- A step of the protocol is a step of the allocator or leaves the maps alone. -/
theorem maps_step {a : Action ρ} (h : step m ops s a = some s') :
    s'.maps = s.maps ∨ ∃ b, IndexMap.step m s.maps b = some s'.maps := by
  cases a with
  | start t target nbrs hints junk =>
    obtain ⟨maps, r, -, hres, -, rfl⟩ := start_cases h
    exact .inr ⟨.reserve t target nbrs hints, hres⟩
  | advance t =>
    obtain ⟨X, -, h⟩ := Option.bind_eq_some_iff.mp h
    revert h
    fun_cases advance with
    | case9 =>
      intro h
      obtain ⟨_, hc, rfl⟩ := Option.map_eq_some_iff.mp h
      exact .inr ⟨.commit t, hc⟩
    | case13 =>
      intro h
      obtain ⟨_, -, rfl⟩ := Option.map_eq_some_iff.mp h
      exact .inl rfl
    | _ => rintro ⟨⟩ <;> exact .inl rfl

omit hnpp in
/-- **The protocol refines the allocator**: seen through the maps, a run of inserts
is a run of reservations and commits. -/
theorem reach_maps {ok : InsertState ρ → Action ρ → Prop} {npoints : Nat}
    (h : Reach (step m ops) ok (initial m npoints disk) s) :
    Reach (IndexMap.step m) anyStep (IndexMap.identity m npoints) s.maps :=
  h.map InsertState.maps fun _ _ _ _ => maps_step

theorem inv_of_reach {npoints : Nat}
    (h : Reach (step m ops) BlindLocksFirst (initial m npoints disk) s) : s.Inv m :=
  h.invariant_of
    (fun _ hs => IndexMap.inv_of_reach hnpp (reach_maps hs)) (inv_initial npoints disk)
    (fun _ _ _ hm _ hi hok hs => inv_step hnpp hi hm hok hs)

/-- **Inserts keep every record when blind calls lock first.**  In every run in
which a call locks a page only when every other call waiting for it will read it:
no step changes the slot of a committed record, and whenever no write is pending
every committed id has on disk the record last written for it. -/
theorem inserts_keep_records {npoints : Nat} {disk : Nat → ρ}
    (h : Reach (step m ops) BlindLocksFirst (initial m npoints disk) s) :
    (s.NoWritePending → s.RecordsIntact) ∧ ∀ a s', step m ops s a = some s' →
        ∀ id l, s.maps.id2loc id = some l → s'.disk l = s.disk l := by
  have hi := inv_of_reach hnpp h
  have hm := IndexMap.inv_of_reach hnpp (reach_maps h)
  refine ⟨fun hno id l hid => hi.stored id l hid fun t X hX _ => hno t X hX,
    fun a s' hs id l hid => ?_⟩
  cases a with
  | start t target nbrs hints junk =>
    obtain ⟨maps, r, -, -, -, rfl⟩ := start_cases hs
    rfl
  | advance t =>
    obtain ⟨⟨res, phase, nbrBuf, rmwBuf⟩, hX, h⟩ := Option.bind_eq_some_iff.mp hs
    revert h
    fun_cases advance with
    | case8 p ps hph =>
      cases hph
      rintro ⟨⟩
      exact write_keeps hi hm hX hid
    -- the commit and the end of a loop
    | case9 | case13 =>
      intro h
      obtain ⟨_, -, rfl⟩ := Option.map_eq_some_iff.mp h
      rfl
    | _ => rintro ⟨⟩ <;> rfl

end Packed

/-- A caller that is alone meets the side condition. -/
theorem blindLocksFirst_alone (halone : ∀ t', t' ≠ t → s.inserts t' = none) {a : Action ρ}
    (ha : a.caller = t) : BlindLocksFirst s a := by
  cases a with
  | start => trivial
  | advance t₁ =>
    obtain rfl : t₁ = t := ha
    intro X p ps _ _ t' Y todo hne hY
    rw [halone t' hne] at hY
    cases hY

/-- Inserts made one after the other by one caller meet it at every step. -/
theorem reach_of_solo_run {npoints : Nat} {disk : Nat → ρ} {l : List (Action ρ)}
    (h : runSteps (step m ops) (initial m npoints disk) l = some s)
    (hsolo : ∀ a ∈ l, a.caller = t) :
    Reach (step m ops) BlindLocksFirst (initial m npoints disk) s := by
  refine Reach.of_run_guarded
    (fun _ _ => rfl) (fun s a s' ha hJ hs => ⟨blindLocksFirst_alone hJ (hsolo a ha), ?_⟩) h
  intro t' hne
  rw [inserts_step hs (hsolo a ha ▸ hne), hJ t' hne]

/-- The first call of `lostRecordRun`, on its own, keeps every record. -/
theorem inserts_keep_records_solo :
    (runSteps (step ⟨1024, 4⟩ listRecords) (initial ⟨1024, 4⟩ 4 (fun l => [l]))
      (lostRecordRun.take 30)).map (fun s => (s.maps.id2loc 0, s.disk 4, s.written 0))
      = some (some 4, [0, 4], [0, 4]) ∧
    ∀ s, runSteps (step ⟨1024, 4⟩ listRecords) (initial ⟨1024, 4⟩ 4 (fun l => [l]))
      (lostRecordRun.take 30) = some s → s.NoWritePending → s.RecordsIntact := by
  refine ⟨by decide +kernel, fun s hs => ?_⟩
  have hsolo : ∀ a ∈ lostRecordRun.take 30, a.caller = 0 := by
    simp [lostRecordRun, Action.caller]
  exact (inserts_keep_records (by decide) (reach_of_solo_run hs hsolo)).1

end InsertState
end PipeANN
