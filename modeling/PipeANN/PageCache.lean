import Mathlib.Data.Nat.Basic
import PipeANN.GuardedRuns

/-! # The page cache between inserts, searches and the disk

`PageCache` (`page_cache.h`) is a reference counted map from pages to contents.
`wbc_write` puts the content of a page there and leaves the disk to a background
thread; `read_alloc` looks a page up, and on a miss reads the disk and puts what
it got; a search issues reads without any lock, and `poll_alloc` puts what they
return when they complete.  An insert does its `read_alloc` of the pages it
rewrites, and its `wbc_write`, while it holds their page locks.

A run is any interleaving of these steps.  A disk read returns the content of the
disk at one moment between its issue and its completion (`sample`).

`put` overwrites whatever is cached.  So a read that sampled the disk before a
`wbc_write` and completes after it replaces the new content by the old one, and a
later locked `read_alloc` gets the old content (`stalePutRun_stale`).  This is the
only way it can fail: `locked_read_current` shows that in every run in which a
completed read is put only if the disk content it sampled includes the latest
`wbc_write` of its page, every locked `read_alloc` returns that write's content.
-/
namespace PipeANN
open Function Option

/-- `PageCacheItem`. -/
structure PageCacheItem (α : Type) where
  buf : α
  refCnt : Nat
  deriving DecidableEq, Repr

/-- The map behind `PageCache`, by page number. -/
abbrev PageCache (α : Type) := Nat → Option (PageCacheItem α)

namespace PageCache
variable {α : Type}

variable (c : PageCache α) (page : Nat)

/-- `get`: the content, if cached; `ref` takes a reference. -/
def get (ref : Bool) : Option α × PageCache α :=
  match c page with
  | none => (none, c)
  | some it =>
    (some it.buf, if ref then update c page (some { it with refCnt := it.refCnt + 1 })
      else c)

/-- `put`: insert or overwrite; `ref` takes a reference. -/
def put (value : α) (ref : Bool) : PageCache α :=
  let cnt := match c page with
    | none => 0
    | some it => it.refCnt
  update c page (some ⟨value, if ref then cnt + 1 else cnt⟩)

/-- `deref`: drop a reference, and the page with the last one.  Of a page that is
not cached it only logs an error. -/
def deref : PageCache α :=
  match c page with
  | none => c
  | some it =>
    update c page
      (if it.refCnt - 1 = 0 then none else some { it with refCnt := it.refCnt - 1 })

end PageCache

/-- A disk read in flight. -/
structure DiskRead (α : Type) where
  page : Nat
  /-- Whether the result is put in the cache (`poll_alloc`, or `read_alloc` with a
  `page_ref`). -/
  alloc : Bool
  /-- The content taken from the disk, with the number of `wbc_write`s of the page
  that the disk included at that moment. -/
  sample : Option (α × Nat)
  deriving DecidableEq, Repr

/-- The shared state. -/
structure CacheState (α : Type) where
  disk : Nat → α
  cache : PageCache α
  /-- `page_lock_table`. -/
  lock : Nat → Option Nat
  /-- The requests that the holder of the page lock waits for in `read_alloc`. -/
  lockedReads : Nat → List Nat
  /-- Content handed to the background thread and not yet on disk. -/
  pending : Nat → Option α
  /-- Entries of `page_ref` vectors still to be dereferenced. -/
  pageRef : Nat → Nat
  /-- Reads in flight, by request. -/
  reads : Nat → Option (DiskRead α)
  /-- The number of `wbc_write`s of each page (history variable). -/
  writes : Nat → Nat
  /-- How many of them the disk content includes (history variable). -/
  onDisk : Nat → Nat
  /-- The content of the latest `wbc_write`, initially the disk content (history
  variable). -/
  latest : Nat → α

namespace CacheState
variable {α : Type}

/-- Nothing cached, nothing in flight. -/
def initial (disk : Nat → α) : CacheState α where
  disk := disk
  cache := fun _ => none
  lock := fun _ => none
  lockedReads := fun _ => []
  pending := fun _ => none
  pageRef := fun _ => 0
  reads := fun _ => none
  writes := fun _ => 0
  onDisk := fun _ => 0
  latest := disk

/-- The steps. -/
inductive Action (α : Type) where
  /-- `send_read` of a search: served by the cache, or a disk read is issued. -/
  | sendRead (page req : Nat)
  /-- The lookup of `read_alloc` by `client`: a hit returns, a miss issues a read. -/
  | readAlloc (client page req : Nat) (ref : Bool)
  /-- The disk serves a read. -/
  | sample (req : Nat)
  /-- A served read completes: `poll_alloc`, or the end of a `read_alloc`. -/
  | complete (req : Nat)
  | lockPage (client page : Nat)
  | wbcWrite (client page : Nat) (value : α)
  /-- The background thread writes the page to disk. -/
  | bgWrite (page : Nat)
  | unlockPage (client page : Nat)
  | deref (page : Nat)

variable (s : CacheState α)

/-- One step.  The holder of a page lock waits for its own `read_alloc`, and keeps
the lock until its write is on disk. -/
def step : Action α → Option (CacheState α)
  | .sendRead page req =>
    if (s.reads req).isNone then
      match (s.cache.get page false).1 with
      | some _ => some s
      | none => some { s with reads := update s.reads req (some ⟨page, true, none⟩) }
    else none
  | .readAlloc client page req ref =>
    if (s.reads req).isNone then
      match s.cache.get page ref with
      | (some _, c) =>
        some { s with
          cache := c
          pageRef := if ref then update s.pageRef page (s.pageRef page + 1)
            else s.pageRef }
      | (none, _) =>
        some { s with
          reads := update s.reads req (some ⟨page, ref, none⟩)
          lockedReads := if s.lock page = some client
            then update s.lockedReads page (req :: s.lockedReads page)
            else s.lockedReads }
    else none
  | .sample req =>
    match s.reads req with
    | some ⟨page, alloc, none⟩ =>
      let served : DiskRead α := ⟨page, alloc, some (s.disk page, s.onDisk page)⟩
      some { s with reads := update s.reads req (some served) }
    | _ => none
  | .complete req =>
    match s.reads req with
    | some ⟨page, alloc, some (v, _)⟩ =>
      some { s with
        cache := if alloc then s.cache.put page v true else s.cache
        pageRef := if alloc then update s.pageRef page (s.pageRef page + 1)
          else s.pageRef
        reads := update s.reads req none
        lockedReads :=
          update s.lockedReads page ((s.lockedReads page).filter (· ≠ req)) }
    | _ => none
  | .lockPage client page =>
    if s.lock page = none then
      some { s with lock := update s.lock page (some client) }
    else none
  | .wbcWrite client page value =>
    if s.lock page = some client ∧ s.lockedReads page = [] ∧ (s.pending page).isNone then
      some { s with
        cache := s.cache.put page value true
        pending := update s.pending page (some value)
        writes := update s.writes page (s.writes page + 1)
        latest := update s.latest page value }
    else none
  | .bgWrite page =>
    match s.pending page with
    | some v =>
      some { s with
        disk := update s.disk page v
        pending := update s.pending page none
        pageRef := update s.pageRef page (s.pageRef page + 1)
        onDisk := update s.onDisk page (s.writes page) }
    | none => none
  | .unlockPage client page =>
    if s.lock page = some client ∧ s.lockedReads page = [] ∧ (s.pending page).isNone then
      some { s with lock := update s.lock page none }
    else none
  | .deref page =>
    if 0 < s.pageRef page then
      some { s with
        cache := s.cache.deref page
        pageRef := update s.pageRef page (s.pageRef page - 1) }
    else none

/-- What a step returns to a `read_alloc` of a page whose lock its caller holds:
the cached content on a hit, the content read from disk otherwise. -/
def lockedResult : Action α → Option (Nat × α)
  | .readAlloc client page _ ref =>
    if s.lock page = some client then (s.cache.get page ref).1.map (page, ·) else none
  | .complete req =>
    match s.reads req with
    | some ⟨page, _, some (v, _)⟩ => if req ∈ s.lockedReads page then some (page, v) else none
    | _ => none
  | _ => none

/-- Every enabled locked `read_alloc` returns the latest content of its page. -/
def LockedReadsCurrent : Prop :=
  ∀ a s' page v, step s a = some s' → s.lockedResult a = some (page, v) → v = s.latest page

/-- The schedule of a stale put: a search reads page `7` from disk; an insert locks
the page and writes it; the search's read completes; the insert's write reaches
the disk; a second insert locks the page. -/
def stalePutRun : List (Action Nat) :=
  [.sendRead 7 0, .sample 0, .lockPage 1 7, .wbcWrite 1 7 42, .complete 0, .bgWrite 7,
    .unlockPage 1 7, .lockPage 2 7]

/-- **A locked `read_alloc` can return an overwritten content**: after the schedule
the second insert reads `0`, though `42` was the latest write. -/
theorem stalePutRun_stale :
    ∃ s, Reach (α := Action Nat) step anyStep (initial (fun _ => 0)) s ∧
      ¬ s.LockedReadsCurrent := by
  have hrun : (runSteps step (initial (fun _ => 0)) stalePutRun).map (fun s =>
      (s.lockedResult (.readAlloc 2 7 1 true), s.latest 7,
        (step s (.readAlloc 2 7 1 true)).isSome)) = some (some (7, 0), 42, true) := by decide
  obtain ⟨s, hs, hobs⟩ := map_eq_some_iff.mp hrun
  simp only [Prod.mk.injEq] at hobs
  obtain ⟨hres, hlatest, hen⟩ := hobs
  obtain ⟨s', hs'⟩ := isSome_iff_exists.mp hen
  refine ⟨s, Reach.of_run hs, fun hcur => ?_⟩
  have := hcur _ s' 7 0 hs' hres
  rw [hlatest] at this
  cases this

/-! ## Runs without stale puts -/

/-- A read that is to be put in the cache sampled a disk content that includes the
latest `wbc_write` of its page. -/
def FreshRead (writes : Nat → Nat) : Option (DiskRead α) → Prop
  | some ⟨page, true, some (_, n)⟩ => n = writes page
  | _ => True

instance (writes : Nat → Nat) : DecidablePred (FreshRead (α := α) writes)
  | some ⟨page, true, some (_, n)⟩ => inferInstanceAs (Decidable (n = writes page))
  | some ⟨_, true, none⟩ | some ⟨_, false, _⟩ | none => isTrue trivial

/-- The side condition on a step: no stale content is put. -/
def FreshPuts : Action α → Prop
  | .complete req => FreshRead s.writes (s.reads req)
  | _ => True

instance (s : CacheState α) : DecidablePred (FreshPuts s)
  | .complete req => inferInstanceAs (Decidable (FreshRead s.writes (s.reads req)))
  | .sendRead .. | .readAlloc .. | .sample _ | .lockPage .. | .wbcWrite .. | .bgWrite _
  | .unlockPage .. | .deref _ => isTrue trivial

/-- The reference of a write that is not on disk yet. -/
def pendingRefs (page : Nat) : Nat := if (s.pending page).isSome then 1 else 0

/-- **The invariant of the cache.** -/
@[grind cases]
structure Inv (s : CacheState α) : Prop where
  /-- A page leaves the cache with its last reference only. -/
  uncached : ∀ p, s.cache p = none → s.pageRef p + s.pendingRefs p = 0
  counted : ∀ p it, s.cache p = some it → it.refCnt = s.pageRef p + s.pendingRefs p ∧ 0 < it.refCnt
  cached : ∀ p it, s.cache p = some it → it.buf = s.latest p
  clean : ∀ p, s.pending p = none → s.disk p = s.latest p ∧ s.onDisk p = s.writes p
  dirty : ∀ p v, s.pending p = some v → v = s.latest p ∧ s.onDisk p < s.writes p
  /-- A sample that includes all writes of its page is the latest content. -/
  sampled : ∀ r p alloc v n, s.reads r = some ⟨p, alloc, some (v, n)⟩ →
    n ≤ s.writes p ∧ (n = s.writes p → v = s.latest p)
  /-- While the lock holder waits for a read, the page is not being written. -/
  locked : ∀ p, ∀ r ∈ s.lockedReads p, s.pending p = none ∧
    ∃ alloc smp, s.reads r = some ⟨p, alloc, smp⟩ ∧ ∀ v n, smp = some (v, n) → n = s.writes p

variable {s s' : CacheState α} {p : Nat}

theorem inv_initial (disk : Nat → α) : (initial disk).Inv := by
  constructor <;> simp [initial, pendingRefs]

section
variable (hi : s.Inv)
include hi

/-- An uncached page has no pending write. -/
theorem Inv.pending_of_uncached (h : s.cache p = none) : s.pending p = none := by
  have h0 := hi.uncached p h
  cases hp : s.pending p with
  | none => rfl
  | some v => simp [pendingRefs, hp] at h0

/-- The count a `put` starts from. -/
theorem Inv.put_eq (p : Nat) (v : α) : s.cache.put p v true
      = update s.cache p (some ⟨v, s.pageRef p + s.pendingRefs p + 1⟩) := by
  unfold PageCache.put
  cases hc : s.cache p with
  | none => simp [hi.uncached p hc]
  | some it => simp [(hi.counted p it hc).1]

/-- Putting the latest content, with a reference, keeps the invariant. -/
theorem Inv.put_latest (p : Nat) : Inv { s with
      cache := s.cache.put p (s.latest p) true
      pageRef := update s.pageRef p (s.pageRef p + 1) } := by
  rw [hi.put_eq]
  refine { hi with uncached := ?_, counted := ?_, cached := ?_ } <;>
    grind [pendingRefs]

/-- Issuing a read of an uncached page; the lock holder may wait for it. -/
theorem Inv.issue {p req : Nat} (alloc : Bool) (waiting : List Nat) (hmiss : s.cache p = none)
    (hfree : s.reads req = none) (hw : ∀ r ∈ waiting, r = req ∨ r ∈ s.lockedReads p) :
    Inv { s with
      reads := update s.reads req (some ⟨p, alloc, none⟩)
      lockedReads := update s.lockedReads p waiting } := by
  have hpending := hi.pending_of_uncached hmiss
  refine { hi with sampled := ?_, locked := fun q r hr => ?_ }
  · grind
  · by_cases h : r = req
    · obtain rfl : q = p := by grind
      exact ⟨hpending, alloc, none, by simp [h], by simp⟩
    · grind

/-- The disk serves a read. -/
theorem Inv.sample {p req : Nat} {alloc : Bool} (hr : s.reads req = some ⟨p, alloc, none⟩) :
    Inv { s with reads :=
      Function.update s.reads req (some ⟨p, alloc, some (s.disk p, s.onDisk p)⟩) } := by
  have hver : s.onDisk p ≤ s.writes p ∧ (s.onDisk p = s.writes p → s.disk p = s.latest p) := by
    cases hp : s.pending p <;> grind
  refine { hi with sampled := ?_, locked := fun q r hm => ?_ }
  · grind
  · by_cases h : r = req
    · obtain rfl : q = p := by grind
      exact ⟨(hi.locked q r hm).1, alloc, some (s.disk q, s.onDisk q), by simp [h], by grind⟩
    · grind

/-- A completed read is forgotten. -/
theorem Inv.retire (p req : Nat) (hp : ∀ q ≠ p, req ∉ s.lockedReads q) : Inv { s with
      reads := update s.reads req none
      lockedReads := update s.lockedReads p ((s.lockedReads p).filter (· ≠ req)) } := by
  refine { hi with sampled := ?_, locked := ?_ } <;> grind

/-- `wbc_write` of a page nobody is writing or waiting for under its lock. -/
theorem Inv.wbcWrite (v : α) (hp : s.pending p = none) (hl : s.lockedReads p = []) : Inv { s with
      cache := s.cache.put p v true
      pending := update s.pending p (some v)
      writes := update s.writes p (s.writes p + 1)
      latest := update s.latest p v } := by
  rw [hi.put_eq]
  constructor <;> grind [pendingRefs]

/-- The background thread writes a page. -/
theorem Inv.bgWrite {v : α} (hp : s.pending p = some v) : Inv { s with
      disk := update s.disk p v
      pending := update s.pending p none
      pageRef := update s.pageRef p (s.pageRef p + 1)
      onDisk := update s.onDisk p (s.writes p) } := by
  constructor <;> grind [pendingRefs]

/-- A reference is dropped. -/
theorem Inv.deref (hp : 0 < s.pageRef p) : Inv { s with
      cache := s.cache.deref p
      pageRef := update s.pageRef p (s.pageRef p - 1) } := by
  cases hc : s.cache p with
  | none => grind
  | some it =>
    simp only [PageCache.deref, hc]
    refine { hi with uncached := ?_, counted := ?_, cached := ?_ } <;>
      grind [pendingRefs]

/-- **One step preserves the invariant**, if it puts no stale content. -/
theorem inv_step {a : Action α} (hok : FreshPuts s a) (h : step s a = some s') : s'.Inv := by
  revert h
  fun_cases step s a with
  | case1 =>
    rintro ⟨⟩
    exact hi
  | case2 p req hfree hget =>
    rintro ⟨⟩
    have hc : s.cache p = none := by grind [PageCache.get]
    simpa using hi.issue true (s.lockedReads p) hc (isNone_iff_eq_none.mp hfree)
      fun r hr => .inr hr
  | case4 client p req ref hfree v c hget =>
    rintro ⟨⟩
    cases hc : s.cache p with
    | none => simp [PageCache.get, hc] at hget
    | some it =>
      obtain ⟨-, rfl⟩ := Prod.mk.inj (by simpa only [PageCache.get, hc] using hget)
      cases ref with
      | true =>
        -- a hit with a reference is a put of the same content
        have hput := hi.put_latest p
        rwa [hi.put_eq, ← (hi.counted p it hc).1, ← hi.cached p it hc] at hput
      | false => exact hi
  | case5 client p req ref hfree c hget =>
    rintro ⟨⟩
    have hc : s.cache p = none := by grind [PageCache.get]
    have hfree := isNone_iff_eq_none.mp hfree
    split
    · exact hi.issue ref _ hc hfree fun r hr => List.mem_cons.mp hr
    · simpa using hi.issue ref (s.lockedReads p) hc hfree fun r hr => .inr hr
  | case7 req page alloc hr =>
    rintro ⟨⟩
    exact hi.sample hr
  | case9 req p alloc v n hr =>
    rintro ⟨⟩
    -- a request waits under the lock of its own page only
    have hp : ∀ q ≠ p, req ∉ s.lockedReads q := fun q hq hm => by
      obtain ⟨-, al, smp, h2, -⟩ := hi.locked q req hm
      cases hr.symm.trans h2
      exact hq rfl
    cases alloc with
    | true =>
      have hfresh : n = s.writes p := by simpa [FreshPuts, FreshRead, hr] using hok
      have hv : v = s.latest p := (hi.sampled req p true v n hr).2 hfresh
      simpa [hv] using (hi.put_latest p).retire p req hp
    | false => simpa using hi.retire p req hp
  | case11 | case17 =>
    rintro ⟨⟩
    exact { hi with }
  | case13 client p v hg =>
    rintro ⟨⟩
    exact hi.wbcWrite v (isNone_iff_eq_none.mp hg.2.2) hg.2.1
  | case15 p v hv =>
    rintro ⟨⟩
    exact hi.bgWrite hv
  | case19 p hp =>
    rintro ⟨⟩
    exact hi.deref hp
  | _ => rintro ⟨⟩

end

/-- **Locked reads are current when no stale content is put.**  In every state of
every run whose completed reads are put only if they include the latest write of
their page, a `read_alloc` under the page lock returns the content of the most
recent `wbc_write` of the page, or the initial disk content if there is none. -/
theorem locked_read_current {disk : Nat → α}
    (h : Reach step FreshPuts (initial disk) s) : s.LockedReadsCurrent := by
  have hi : s.Inv := h.invariant (inv_initial disk) fun _ _ _ hi hok hs => inv_step hi hok hs
  intro a s' page v _ hres
  cases a with
  | readAlloc client p req ref =>
    simp only [lockedResult, PageCache.get, ite_none_right_eq_some] at hres
    cases hc : s.cache p with
    | none => simp [hc] at hres
    | some it =>
      obtain ⟨rfl, rfl⟩ : p = page ∧ it.buf = v := by simpa [hc] using hres.2
      exact hi.cached p it hc
  | complete req =>
    simp only [lockedResult] at hres
    split at hres
    · rename_i p alloc w n hr
      split_ifs at hres with hm
      obtain ⟨rfl, rfl⟩ : p = page ∧ w = v := by simpa using hres
      obtain ⟨-, al, smp, h2, h3⟩ := hi.locked p req hm
      obtain ⟨-, hsmp⟩ : alloc = al ∧ some (w, n) = smp := by simpa using hr.symm.trans h2
      exact (hi.sampled req p alloc w n hr).2 (h3 w n hsmp.symm)
    · cases hres
  | _ => cases hres

/-- The schedule of `stalePutRun` with the search's read completing before the
write: the second insert reads what the first wrote. -/
theorem locked_read_current_fresh :
    (runSteps (fun s a => if FreshPuts s a then step s a else none) (initial (fun _ => 0))
      [.sendRead 7 0, .sample 0, .complete 0, .lockPage 1 7, .wbcWrite 1 7 42, .bgWrite 7,
        .unlockPage 1 7, .lockPage 2 7]).map
      (fun s => (s.lockedResult (.readAlloc 2 7 1 true), s.latest 7)) = some (some (7, 42), 42) ∧
    ∀ s, runSteps (fun s a => if FreshPuts s a then step s a else none) (initial (fun _ => 0))
      [.sendRead 7 0, .sample 0, .complete 0, .lockPage 1 7, .wbcWrite 1 7 42, .bgWrite 7,
        .unlockPage 1 7, .lockPage 2 7] = some s → s.LockedReadsCurrent :=
  ⟨by decide, fun _ hs => locked_read_current (Reach.of_run_checked hs)⟩

end CacheState
end PipeANN
