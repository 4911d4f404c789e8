import ShardCache.Foundations.Run
import ShardCache.Store.SnapshotReadings

/-!
# Snapshots of a running process

The process writes a snapshot again and again while other threads work on the cache, and once more
when it is told to stop. A save reads the shards one after the other, and calls run in between. The
file is written under another name and renamed when it is complete; a save can fail on the way, and
the process can be killed at any point. The next process loads what it finds at the path.

What a restart finds is a whole file, of the last save that was renamed. Under every key it restores
what the shard of the key held when that save read it. A node that has left the cluster removes its
file, and no save brings it back. A file system that loses what was written, as in a power failure,
is not modelled.

## Main definitions

* `Persistence.Process`, `Persistence.Host`: the process, and the files
* `Persistence.step`: one step of a process, of other threads, or of the environment
* `Persistence.Collected`, `Persistence.LastSave`: what a save has read in a run, and the file that
  the last save of a run has left

## Main results

* `Persistence.Process.Sound.others`: at most one save is under way
* `Persistence.Explained.of_step`: what one step keeps
* `Persistence.restart_restores_last_save`: what a restart restores after any run
* `Persistence.left_restores_nothing`: a node that has left starts empty
-/

namespace ShardCache

open Foundations

namespace ShardedCache

variable {s : ShardedCache} {share count : ℕ}

/-- A call of one shard. A call that names a key goes to the shard of the key; the others go to the
shards one after the other, and this is one of them. -/
def callShard (s : ShardedCache) (i : ℕ) (now : Time) (c : Call)
    (hkey : ∀ key, c.key = some key → s.shardIndex key = i) : ShardedCache where
  shards := s.shards.modify i fun shard => (shard.call (now, c)).1
  pos := by
    rw [List.length_modify]
    exact s.pos
  wellFormed d hd := by
    obtain ⟨j, hj⟩ := List.mem_iff_getElem?.mp hd
    rw [List.getElem?_modify] at hj
    obtain ⟨shard, hshard, rfl⟩ := Option.map_eq_some_iff.mp hj
    have hwf := s.wellFormed shard (List.mem_of_getElem? hshard)
    split
    · exact hwf.call (now, c)
    · exact hwf
  placed j d hd n hn := by
    rw [List.length_modify]
    rw [List.getElem?_modify] at hd
    obtain ⟨shard, hshard, rfl⟩ := Option.map_eq_some_iff.mp hd
    split at hn
    · rename_i hij
      subst hij
      rcases Cache.key_of_mem_call (s.wellFormed shard (List.mem_of_getElem? hshard)) (now, c) hn
        with hk | ⟨m, hm, hmk⟩
      · exact hkey n.key hk
      · rw [← hmk]
        exact s.placed i shard hshard m hm
    · exact s.placed j shard hshard n hn

theorem Shares.callShard (h : Shares share count s) {i : ℕ} {now : Time} {c : Call}
    (hkey : ∀ key, c.key = some key → s.shardIndex key = i) :
    Shares share count (s.callShard i now c hkey) := by
  refine ⟨?_, (List.length_modify ..).trans h.2⟩
  intro d hd
  obtain ⟨j, hj⟩ := List.mem_iff_getElem?.mp hd
  rw [ShardedCache.callShard, List.getElem?_modify] at hj
  obtain ⟨shard, hshard, rfl⟩ := Option.map_eq_some_iff.mp hj
  have hmem := List.mem_of_getElem? hshard
  obtain ⟨hbound, hcap⟩ := h.1 shard hmem
  split
  · exact ⟨hbound.call (s.wellFormed shard hmem) (now, c),
      (Cache.Follows.call shard (now, c)).capacity.trans hcap⟩
  · exact ⟨hbound, hcap⟩

end ShardedCache

/-! ## The process and its files -/

namespace Persistence

/-- What `main` reads from its environment: the capacity, the number of shards and the window of
tombstones of the cache, `SNAPSHOT_PATH`, which is not empty, and whether `LEAVE_ON_SHUTDOWN` is
not `0`. -/
structure Setup where
  capacity : ℕ
  shardCount : ℕ
  tombstoneTtl : Millis
  path : String
  leaveOnShutdown : Bool := true

/-- The number of shards. -/
def Setup.count (setup : Setup) : ℕ := max setup.shardCount 1

/-- The capacity of each shard. -/
def Setup.share (setup : Setup) : ℕ := max (setup.capacity / setup.count) 1

/-- The cache that a process begins with. -/
def Setup.emptyCache (setup : Setup) : ShardedCache :=
  .new setup.capacity setup.shardCount setup.tombstoneTtl

/-- Who saves: the snapshot thread, or the signal handler at the end. -/
inductive Saver where
  | thread
  | handler
deriving DecidableEq, Repr

/-- How far a save has come: it has read the wall clock and some of the shards, has some bytes left
to write to the open temporary file, or has written and closed it. -/
inductive Save where
  | collecting (unixMs : ℤ) (batches : List (List (Key × VersionedValue)))
  | writing (rest : Bytes)
  | written
deriving DecidableEq, Repr

/-- What is not yet written of the file, once it is open. -/
def Save.rest : Save → Option Bytes
  | .collecting .. => none
  | .writing rest => some rest
  | .written => some []

/-- How far the shutdown has come: no signal was caught, the handler waits for the snapshot thread,
has joined it, or has removed the file or saved it once more. -/
inductive Stage where
  | serving
  | stopping
  | joined
  | finished
deriving DecidableEq, Repr

/-- A process; `stop` is `snapshot_stop`. -/
structure Process where
  cache : ShardedCache
  stop : Bool := false
  threadEnded : Bool := false
  stage : Stage := .serving
  save : Saver → Option Save := fun _ => none

/-- The files at the path and at the path with `.tmp` after it, and the process that runs. -/
structure Host where
  file : Option Bytes := none
  tmp : Option Bytes := none
  process : Option Process := none

/-- A step. A process starts, at these readings of the clocks, or is gone, killed or at its end;
another thread calls a shard. A save begins, reads the next shard, opens the temporary file, writes
some bytes, flushes and closes it, and renames it, of which the last four can fail. A signal is
caught, the snapshot thread sees `snapshot_stop` and ends, the handler joins it, and removes the
file. -/
inductive Label where
  | start (unixMs : ℤ) (now : Time)
  | kill
  | call (i : ℕ) (now : Time) (c : Call)
  | beginSave (who : Saver) (unixMs : ℤ)
  | readShard (who : Saver) (now : Time)
  | openTmp (who : Saver) (ok : Bool)
  | write (who : Saver) (n : ℕ)
  | flush (who : Saver) (ok : Bool)
  | rename (who : Saver) (ok : Bool)
  | signal
  | endThread
  | join
  | remove (ok : Bool)

/-- The step leaves something else at the path, or nothing. -/
def Label.replacesFile : Label → Bool
  | .rename _ ok | .remove ok => ok
  | _ => false

namespace Process

/-- The save goes on. -/
def setSave (p : Process) (who : Saver) (save : Save) : Process :=
  { p with save := Function.update p.save who (some save) }

/-- The save is over, with or without success. -/
def endSave (p : Process) (who : Saver) : Process :=
  { p with
    save := Function.update p.save who none
    stage := if who = .handler then .finished else p.stage }

@[simp] theorem setSave_save_self (p : Process) (who : Saver) (save : Save) :
    (p.setSave who save).save who = some save := Function.update_self ..

theorem setSave_save_of_ne (p : Process) {who other : Saver} (hne : other ≠ who) (save : Save) :
    (p.setSave who save).save other = p.save other := Function.update_of_ne hne ..

@[simp] theorem endSave_save_self (p : Process) (who : Saver) :
    (p.endSave who).save who = none := Function.update_self ..

theorem endSave_save_of_ne (p : Process) {who other : Saver} (hne : other ≠ who) :
    (p.endSave who).save other = p.save other := Function.update_of_ne hne ..

/-- The snapshot thread saves when it wakes up and `snapshot_stop` is not set; the handler saves
once it has joined the thread, unless the node leaves. -/
def begins (setup : Setup) (p : Process) : Saver → Bool
  | .thread => !p.stop && !p.threadEnded && (p.save .thread).isNone
  | .handler => decide (p.stage = .joined) && !setup.leaveOnShutdown && (p.save .handler).isNone

end Process

/-- A step of the process. -/
def act (setup : Setup) (s : Host) (p : Process) : Label → Option Host
  | .start .. => none
  | .kill => some { s with process := none }
  | .call i now c =>
    if hkey : ∀ key, c.key = some key → p.cache.shardIndex key = i then
      some { s with process := some { p with cache := p.cache.callShard i now c hkey } }
    else none
  | .beginSave who unixMs =>
    if p.begins setup who then
      some { s with process := some (p.setSave who (.collecting unixMs [])) }
    else none
  | .readShard who now =>
    match p.save who with
    | some (.collecting unixMs batches) =>
      if batches.length < p.cache.shards.length then
        some { s with
          process := some (p.setSave who (.collecting unixMs
            (batches ++ [p.cache.shardSnapshot batches.length now]))) }
      else none
    | _ => none
  | .openTmp who ok =>
    match p.save who with
    | some (.collecting unixMs batches) =>
      if batches.length < p.cache.shards.length then none
      else if ok then
        some { s with
          tmp := some []
          process := some (p.setSave who (.writing (Snapshot.encode unixMs batches.flatten))) }
      else some { s with process := some (p.endSave who) }
    | _ => none
  | .write who n =>
    match p.save who with
    | some (.writing rest) =>
      some { s with
        tmp := s.tmp.map fun tmp => tmp ++ rest.take n
        process := some (p.setSave who (.writing (rest.drop n))) }
    | _ => none
  | .flush who ok =>
    match p.save who with
    | some (.writing rest) =>
      if !ok then some { s with process := some (p.endSave who) }
      else if rest.isEmpty then some { s with process := some (p.setSave who .written) }
      else none
    | _ => none
  | .rename who ok =>
    match p.save who with
    | some .written =>
      if ok then some { file := s.tmp, tmp := none, process := some (p.endSave who) }
      else some { s with process := some (p.endSave who) }
    | _ => none
  | .signal =>
    if p.stage = .serving then
      some { s with process := some { p with stop := true, stage := .stopping } }
    else none
  | .endThread =>
    if p.stop && (p.save .thread).isNone then
      some { s with process := some { p with threadEnded := true } }
    else none
  | .join =>
    if p.stage = .stopping ∧ p.threadEnded then
      some { s with process := some { p with stage := .joined } }
    else none
  | .remove ok =>
    if p.stage = .joined ∧ setup.leaveOnShutdown then
      some { s with
        file := if ok then none else s.file
        process := some { p with stage := .finished } }
    else none

/-- A process that starts loads the file, if there is one. -/
def started (setup : Setup) (file : Option Bytes) (unixMs : ℤ) (now : Time) : Process where
  cache := (Snapshot.loadSnapshot setup.emptyCache setup.path file unixMs fun _ => now).1

/-- One step. -/
def step (setup : Setup) (s : Host) (l : Label) : Option Host :=
  match s.process, l with
  | some p, l => act setup s p l
  | none, .start unixMs now => some { s with process := some (started setup s.file unixMs now) }
  | none, _ => none

variable {setup : Setup} {s s' : Host} {p : Process} {l : Label} {ls : List Label} {who : Saver}
  {unixMs : ℤ}

theorem act_of_step (h : step setup s l = some s') (hp : s.process = some p) :
    act setup s p l = some s' := by
  unfold step at h
  rwa [hp] at h

theorem start_of_step (h : step setup s l = some s') (hp : s.process = none) :
    ∃ unixMs now, l = .start unixMs now ∧
      s' = { s with process := some (started setup s.file unixMs now) } := by
  unfold step at h
  rw [hp] at h
  cases l with
  | start unixMs now => exact ⟨unixMs, now, rfl, (Option.some.inj h).symm⟩
  | _ => exact absurd h (by simp)

/-! ## Saves do not overlap -/

/-- The cache keeps within its shares, and the handler saves only after the thread has ended. -/
structure Process.Sound (setup : Setup) (p : Process) : Prop where
  shares : ShardedCache.Shares setup.share setup.count p.cache
  joined : p.stage = .joined ∨ p.stage = .finished → p.threadEnded = true
  ended : p.threadEnded = true → p.save .thread = none ∧ p.stop = true
  last : p.save .handler ≠ none → p.stage = .joined ∧ setup.leaveOnShutdown = false

/-- The thread has not ended, or the handler has joined it. -/
def Process.MaySave (setup : Setup) (p : Process) : Saver → Prop
  | .thread => p.threadEnded = false
  | .handler => p.stage = .joined ∧ setup.leaveOnShutdown = false

theorem Process.maySave_of_begins (h : p.begins setup who = true) : p.MaySave setup who := by
  cases who with
  | thread =>
    simp only [begins, Bool.and_eq_true, Bool.not_eq_true'] at h
    exact h.1.2
  | handler =>
    simp only [begins, Bool.and_eq_true, decide_eq_true_eq, Bool.not_eq_true'] at h
    exact h.1

namespace Process.Sound

theorem maySave (h : p.Sound setup) (hwho : p.save who ≠ none) : p.MaySave setup who := by
  cases who with
  | thread =>
    refine Bool.eq_false_iff.mpr ?_
    intro hended
    exact hwho (h.ended hended).1
  | handler => exact h.last hwho

/-- **At most one save is under way.** -/
theorem others (h : p.Sound setup) (hwho : p.MaySave setup who) {other : Saver}
    (hne : other ≠ who) : p.save other = none := by
  cases who with
  | thread =>
    cases other with
    | thread => exact absurd rfl hne
    | handler =>
      by_contra hsave
      exact Bool.eq_false_iff.mp hwho (h.joined (.inl (h.last hsave).1))
  | handler =>
    cases other with
    | thread => exact (h.ended (h.joined (.inl hwho.1))).1
    | handler => exact absurd rfl hne

theorem setSave (h : p.Sound setup) (hwho : p.MaySave setup who) (save : Save) :
    (p.setSave who save).Sound setup where
  shares := h.shares
  joined := h.joined
  ended hended := by
    refine ⟨?_, (h.ended hended).2⟩
    cases who with
    | thread => exact absurd hended (Bool.eq_false_iff.mp hwho)
    | handler => exact (p.setSave_save_of_ne (by decide) save).trans (h.ended hended).1
  last hsave := by
    cases who with
    | thread =>
      rw [p.setSave_save_of_ne (by decide)] at hsave
      exact h.last hsave
    | handler => exact hwho

theorem endSave (h : p.Sound setup) (hwho : p.MaySave setup who) : (p.endSave who).Sound setup where
  shares := h.shares
  joined hstage := by
    cases who with
    | thread => exact h.joined hstage
    | handler => exact h.joined (.inl hwho.1)
  ended hended := by
    refine ⟨?_, (h.ended hended).2⟩
    cases who with
    | thread => exact p.endSave_save_self .thread
    | handler => exact (p.endSave_save_of_ne (by decide)).trans (h.ended hended).1
  last hsave := by
    cases who with
    | thread =>
      rw [p.endSave_save_of_ne (by decide)] at hsave
      exact h.last hsave
    | handler => exact absurd (p.endSave_save_self .handler) hsave

end Process.Sound

theorem shares_emptyCache (setup : Setup) :
    ShardedCache.Shares setup.share setup.count setup.emptyCache := by
  have hnew := ShardedCache.shares_new setup.capacity (le_max_right setup.shardCount 1)
    setup.tombstoneTtl
  rwa [ShardedCache.new_max] at hnew

/-- The cache after a load. -/
theorem cache_loadSnapshot (cache : ShardedCache) (path : String) (file : Bytes) (unixMs : ℤ)
    (now : ℕ → Time) : (Snapshot.loadSnapshot cache path (some file) unixMs now).1 =
      match Snapshot.decode file with
      | .error _ => cache
      | .ok entries => (entries.foldl (Snapshot.restore unixMs now) (cache, 0)).1 := by
  cases hdecode : Snapshot.decode file <;>
    simp [Snapshot.loadSnapshot, Snapshot.load, hdecode, bind, Except.bind, pure, Except.pure]

/-- A load keeps the cache within its shares. -/
theorem shares_loadSnapshot {share count : ℕ} {cache : ShardedCache}
    (h : ShardedCache.Shares share count cache) (path : String) (file : Option Bytes) (unixMs : ℤ)
    (now : ℕ → Time) :
    ShardedCache.Shares share count (Snapshot.loadSnapshot cache path file unixMs now).1 := by
  cases file with
  | none => exact h
  | some file =>
    rw [cache_loadSnapshot]
    cases Snapshot.decode file with
    | error message => exact h
    | ok entries =>
      refine List.foldlRecOn (motive := fun s : ShardedCache × ℕ =>
        ShardedCache.Shares share count s.1) entries (Snapshot.restore unixMs now) h ?_
      intro s hs e _
      unfold Snapshot.restore
      cases e.restored unixMs with
      | none => exact hs
      | some v => exact hs.call (now s.2, .apply e.key v)

theorem sound_started (setup : Setup) (file : Option Bytes) (unixMs : ℤ) (now : Time) :
    (started setup file unixMs now).Sound setup where
  shares := shares_loadSnapshot (shares_emptyCache setup) ..
  joined h := by simp [started] at h
  ended h := by simp [started] at h
  last h := absurd rfl h

/-! ## What a run has saved -/

/-- In a run along `ls`, a save that has not ended began at the time `unixMs`, and found these
caches at these times when it read the shards. -/
def Collected (setup : Setup) (ls : List Label) (who : Saver) (unixMs : ℤ)
    (readings : List (ShardedCache × Time)) : Prop :=
  ∃ before since, ls = before ++ .beginSave who unixMs :: since ∧
    (∀ l ∈ since, l ≠ .kill ∧ ∀ t, l ≠ .beginSave who t) ∧
    ∀ (i : ℕ) (r : ShardedCache × Time), readings[i]? = some r →
      ∃ mid after s p, since = mid ++ .readShard who r.2 :: after ∧
        run (step setup) {} (before ++ .beginSave who unixMs :: mid) = some s ∧
        s.process = some p ∧ p.cache = r.1

/-- In a run along `ls`, the last step that left something else at the path renamed this file: it is
the whole file of a save that read every shard. -/
def LastSave (setup : Setup) (ls : List Label) (file : Bytes) (unixMs : ℤ)
    (readings : List (ShardedCache × Time)) : Prop :=
  ∃ who before after, ls = before ++ .rename who true :: after ∧
    Collected setup before who unixMs readings ∧ readings.length = setup.count ∧
    file = Snapshot.encode unixMs (Snapshot.batchesOf readings).flatten ∧
    ∀ l ∈ after, l.replacesFile = false

variable {readings : List (ShardedCache × Time)} {file : Bytes}

theorem collected_begin (setup : Setup) (ls : List Label) (who : Saver) (unixMs : ℤ) :
    Collected setup (ls ++ [.beginSave who unixMs]) who unixMs [] :=
  ⟨ls, [], rfl, by simp, by simp⟩

theorem Collected.snoc (h : Collected setup ls who unixMs readings) (hkill : l ≠ .kill)
    (hbegin : ∀ t, l ≠ .beginSave who t) : Collected setup (ls ++ [l]) who unixMs readings := by
  obtain ⟨before, since, rfl, hsince, hread⟩ := h
  refine ⟨before, since ++ [l], by simp, ?_, ?_⟩
  · intro l' hl'
    rcases List.mem_append.mp hl' with hl' | hl'
    · exact hsince l' hl'
    · rw [List.mem_singleton.mp hl']
      exact ⟨hkill, hbegin⟩
  · intro i r hr
    obtain ⟨mid, after, s, p, rfl, hrun, hp, hcache⟩ := hread i r hr
    exact ⟨mid, after ++ [l], s, p, by simp, hrun, hp, hcache⟩

theorem Collected.read (h : Collected setup ls who unixMs readings)
    (hrun : run (step setup) {} ls = some s) (hp : s.process = some p) (now : Time) :
    Collected setup (ls ++ [.readShard who now]) who unixMs (readings ++ [(p.cache, now)]) := by
  obtain ⟨before, since, rfl, hsince, hread⟩ := h
  refine ⟨before, since ++ [.readShard who now], by simp, ?_, ?_⟩
  · intro l hl
    rcases List.mem_append.mp hl with hl | hl
    · exact hsince l hl
    · simp [List.mem_singleton.mp hl]
  · intro i r hr
    rw [List.getElem?_append] at hr
    split at hr
    · obtain ⟨mid, after, s', p', rfl, hmid⟩ := hread i r hr
      exact ⟨mid, after ++ [.readShard who now], s', p', by simp, hmid⟩
    · obtain rfl : (p.cache, now) = r :=
        List.mem_singleton.mp (List.mem_of_getElem? hr) |>.symm
      exact ⟨since, [], s, p, by simp, hrun, hp, rfl⟩

theorem LastSave.snoc (h : LastSave setup ls file unixMs readings) (hl : l.replacesFile = false) :
    LastSave setup (ls ++ [l]) file unixMs readings := by
  obtain ⟨who, before, after, rfl, hcollected, hlength, hfile, hafter⟩ := h
  refine ⟨who, before, after ++ [l], by simp, hcollected, hlength, hfile, ?_⟩
  intro l' hl'
  rcases List.mem_append.mp hl' with hl' | hl'
  · exact hafter l' hl'
  · rwa [List.mem_singleton.mp hl']

/-- The run along `ls` explains the state: the saves under way have read what they are to write, and
the file is that of the last save. -/
structure Explained (setup : Setup) (ls : List Label) (s : Host) : Prop where
  sound : ∀ p, s.process = some p → p.Sound setup
  collecting : ∀ p, s.process = some p → ∀ who unixMs batches,
    p.save who = some (.collecting unixMs batches) → ∃ readings,
      batches = Snapshot.batchesOf readings ∧ readings.length ≤ setup.count ∧
      Collected setup ls who unixMs readings
  writing : ∀ p, s.process = some p → ∀ who save rest, p.save who = some save →
    save.rest = some rest → ∃ tmp unixMs readings, s.tmp = some tmp ∧
      tmp ++ rest = Snapshot.encode unixMs (Snapshot.batchesOf readings).flatten ∧
      readings.length = setup.count ∧ Collected setup ls who unixMs readings
  file : ∀ file, s.file = some file → ∃ unixMs readings, LastSave setup ls file unixMs readings

namespace Explained

/-- No process runs after this step, or it has no save under way. -/
theorem of_idle (hsound : ∀ p, s'.process = some p → p.Sound setup)
    (hidle : ∀ p, s'.process = some p → ∀ who, p.save who = none)
    (hfile : ∀ file, s'.file = some file →
      ∃ unixMs readings, LastSave setup ls file unixMs readings) : Explained setup ls s' where
  sound := hsound
  collecting p hp who unixMs batches hsave := by simp [hidle p hp who] at hsave
  writing p hp who save rest hsave := by simp [hidle p hp who] at hsave
  file := hfile

theorem file_snoc (h : Explained setup ls s) (hl : l.replacesFile = false)
    (hfile : s'.file = s.file) : ∀ file, s'.file = some file →
      ∃ unixMs readings, LastSave setup (ls ++ [l]) file unixMs readings := by
  intro file hf
  obtain ⟨unixMs, readings, hlast⟩ := h.file file (hfile ▸ hf)
  exact ⟨unixMs, readings, hlast.snoc hl⟩

/-- A step that leaves the saves as they are. -/
theorem of_save_eq {p' : Process} (h : Explained setup ls s) (hp : s.process = some p)
    (hsound : p'.Sound setup) (hsave : p'.save = p.save) (hkill : l ≠ .kill)
    (hbegin : ∀ who t, l ≠ .beginSave who t) (hl : l.replacesFile = false) :
    Explained setup (ls ++ [l]) { s with process := some p' } where
  sound q hq := Option.some.inj hq ▸ hsound
  collecting q hq who unixMs batches hcollecting := by
    obtain rfl := Option.some.inj hq
    rw [hsave] at hcollecting
    obtain ⟨readings, hbatches, hlength, hcollected⟩ :=
      h.collecting p hp who unixMs batches hcollecting
    exact ⟨readings, hbatches, hlength, hcollected.snoc hkill (hbegin who)⟩
  writing q hq who save rest hwriting hrest := by
    obtain rfl := Option.some.inj hq
    rw [hsave] at hwriting
    obtain ⟨tmp, unixMs, readings, htmp, hfile, hlength, hcollected⟩ :=
      h.writing p hp who save rest hwriting hrest
    exact ⟨tmp, unixMs, readings, htmp, hfile, hlength, hcollected.snoc hkill (hbegin who)⟩
  file := h.file_snoc hl rfl

/-- A step of a save, or to a save: there is no other. -/
theorem of_setSave {save : Save} {tmp : Option Bytes} (h : Explained setup ls s)
    (hp : s.process = some p) (hwho : p.MaySave setup who) (hl : l.replacesFile = false)
    (hcollecting : ∀ unixMs batches, save = .collecting unixMs batches → ∃ readings,
      batches = Snapshot.batchesOf readings ∧ readings.length ≤ setup.count ∧
      Collected setup (ls ++ [l]) who unixMs readings)
    (hwriting : ∀ rest, save.rest = some rest → ∃ written unixMs readings, tmp = some written ∧
      written ++ rest = Snapshot.encode unixMs (Snapshot.batchesOf readings).flatten ∧
      readings.length = setup.count ∧ Collected setup (ls ++ [l]) who unixMs readings) :
    Explained setup (ls ++ [l]) { s with tmp := tmp, process := some (p.setSave who save) } where
  sound q hq := Option.some.inj hq ▸ (h.sound p hp).setSave hwho save
  collecting q hq other unixMs batches hsave := by
    obtain rfl := Option.some.inj hq
    by_cases hother : other = who
    · rw [hother, p.setSave_save_self] at hsave
      rw [hother]
      exact hcollecting unixMs batches (Option.some.inj hsave)
    · rw [p.setSave_save_of_ne hother, (h.sound p hp).others hwho hother] at hsave
      exact absurd hsave (by simp)
  writing q hq other save' rest hsave hrest := by
    obtain rfl := Option.some.inj hq
    by_cases hother : other = who
    · rw [hother, p.setSave_save_self] at hsave
      rw [hother]
      exact hwriting rest (Option.some.inj hsave ▸ hrest)
    · rw [p.setSave_save_of_ne hother, (h.sound p hp).others hwho hother] at hsave
      exact absurd hsave (by simp)
  file := h.file_snoc hl rfl

/-- The end of a save. -/
theorem of_endSave (h : Explained setup ls s) (hp : s.process = some p) (hwho : p.MaySave setup who)
    (hprocess : s'.process = some (p.endSave who)) (hfile : ∀ file, s'.file = some file →
      ∃ unixMs readings, LastSave setup (ls ++ [l]) file unixMs readings) :
    Explained setup (ls ++ [l]) s' := by
  have hinv (q : Process) (hq : s'.process = some q) : q = p.endSave who :=
    Option.some.inj (hq.symm.trans hprocess)
  refine of_idle ?_ ?_ hfile
  · intro q hq
    rw [hinv q hq]
    exact (h.sound p hp).endSave hwho
  · intro q hq other
    rw [hinv q hq]
    by_cases hother : other = who
    · rw [hother, p.endSave_save_self]
    · rw [p.endSave_save_of_ne hother, (h.sound p hp).others hwho hother]

section Act

variable (h : Explained setup ls s) (hp : s.process = some p)

include h hp

theorem of_beginSave (hact : act setup s p (.beginSave who unixMs) = some s') :
    Explained setup (ls ++ [.beginSave who unixMs]) s' := by
  simp only [act] at hact
  split at hact
  · rename_i hbegins
    obtain rfl := Option.some.inj hact
    refine h.of_setSave hp (Process.maySave_of_begins hbegins) rfl ?_ ?_
    · rintro _ _ ⟨rfl, rfl⟩
      exact ⟨[], rfl, Nat.zero_le _, collected_begin setup ls who unixMs⟩
    · intro rest hrest
      exact absurd hrest (by simp [Save.rest])
  · exact absurd hact (by simp)

theorem of_readShard (hrun : run (step setup) {} ls = some s) {now : Time}
    (hact : act setup s p (.readShard who now) = some s') :
    Explained setup (ls ++ [.readShard who now]) s' := by
  simp only [act] at hact
  split at hact
  · rename_i unixMs batches hsave
    split at hact
    · rename_i hlt
      obtain rfl := Option.some.inj hact
      obtain ⟨readings, rfl, -, hcollected⟩ := h.collecting p hp who unixMs batches hsave
      rw [Snapshot.length_batchesOf, (h.sound p hp).shares.2] at hlt
      refine h.of_setSave hp ((h.sound p hp).maySave (by simp [hsave])) rfl ?_ ?_
      · rintro _ _ ⟨rfl, rfl⟩
        refine ⟨readings ++ [(p.cache, now)], ?_, ?_, hcollected.read hrun hp now⟩
        · rw [Snapshot.batchesOf_append, Snapshot.length_batchesOf]
        · simpa using hlt
      · intro rest hrest
        exact absurd hrest (by simp [Save.rest])
    · exact absurd hact (by simp)
  · exact absurd hact (by simp)

theorem of_openTmp {ok : Bool} (hact : act setup s p (.openTmp who ok) = some s') :
    Explained setup (ls ++ [.openTmp who ok]) s' := by
  simp only [act] at hact
  split at hact
  · rename_i unixMs batches hsave
    have hwho : p.MaySave setup who := (h.sound p hp).maySave (by simp [hsave])
    split at hact
    · exact absurd hact (by simp)
    · rename_i hall
      split at hact
      · obtain rfl := Option.some.inj hact
        obtain ⟨readings, rfl, hle, hcollected⟩ := h.collecting p hp who unixMs batches hsave
        rw [Snapshot.length_batchesOf, (h.sound p hp).shares.2] at hall
        refine h.of_setSave hp hwho rfl (by simp) ?_
        rintro _ ⟨rfl⟩
        exact ⟨[], unixMs, readings, rfl, rfl, by omega, hcollected.snoc (by simp) (by simp)⟩
      · obtain rfl := Option.some.inj hact
        exact h.of_endSave hp hwho rfl (h.file_snoc rfl rfl)
  · exact absurd hact (by simp)

theorem of_write {n : ℕ} (hact : act setup s p (.write who n) = some s') :
    Explained setup (ls ++ [.write who n]) s' := by
  simp only [act] at hact
  split at hact
  · rename_i rest hsave
    obtain rfl := Option.some.inj hact
    obtain ⟨tmp, unixMs, readings, htmp, hfile, hlength, hcollected⟩ :=
      h.writing p hp who _ rest hsave rfl
    refine h.of_setSave hp ((h.sound p hp).maySave (by simp [hsave])) rfl (by simp) ?_
    rintro _ ⟨rfl⟩
    refine ⟨tmp ++ rest.take n, unixMs, readings, by simp [htmp], ?_, hlength,
      hcollected.snoc (by simp) (by simp)⟩
    rw [List.append_assoc, List.take_append_drop, hfile]
  · exact absurd hact (by simp)

theorem of_flush {ok : Bool} (hact : act setup s p (.flush who ok) = some s') :
    Explained setup (ls ++ [.flush who ok]) s' := by
  simp only [act] at hact
  split at hact
  · rename_i rest hsave
    have hwho : p.MaySave setup who := (h.sound p hp).maySave (by simp [hsave])
    split at hact
    · obtain rfl := Option.some.inj hact
      exact h.of_endSave hp hwho rfl (h.file_snoc rfl rfl)
    · split at hact
      · rename_i hempty
        obtain rfl := Option.some.inj hact
        obtain ⟨tmp, unixMs, readings, htmp, hfile, hlength, hcollected⟩ :=
          h.writing p hp who _ rest hsave rfl
        refine h.of_setSave hp hwho rfl (by simp) ?_
        rintro _ ⟨rfl⟩
        rw [List.isEmpty_iff.mp hempty] at hfile
        exact ⟨tmp, unixMs, readings, htmp, hfile, hlength, hcollected.snoc (by simp) (by simp)⟩
      · exact absurd hact (by simp)
  · exact absurd hact (by simp)

/-- The file that is renamed is whole, since no other save has touched it. -/
theorem of_rename {ok : Bool} (hact : act setup s p (.rename who ok) = some s') :
    Explained setup (ls ++ [.rename who ok]) s' := by
  simp only [act] at hact
  split at hact
  · rename_i hsave
    have hwho : p.MaySave setup who := (h.sound p hp).maySave (by simp [hsave])
    split at hact
    · rename_i hok
      obtain rfl := Option.some.inj hact
      refine h.of_endSave hp hwho rfl ?_
      intro file hf
      obtain ⟨tmp, unixMs, readings, htmp, hfile, hlength, hcollected⟩ :=
        h.writing p hp who _ [] hsave rfl
      obtain rfl : tmp = file := Option.some.inj (htmp.symm.trans hf)
      refine ⟨unixMs, readings, who, ls, [], by simp [hok], hcollected, hlength, ?_, by simp⟩
      rw [← hfile, List.append_nil]
    · rename_i hok
      obtain rfl := Option.some.inj hact
      exact h.of_endSave hp hwho rfl (h.file_snoc (by simpa [Label.replacesFile] using hok) rfl)
  · exact absurd hact (by simp)

/-- The file is removed when no save is under way. -/
theorem of_remove {ok : Bool} (hact : act setup s p (.remove ok) = some s') :
    Explained setup (ls ++ [.remove ok]) s' := by
  have hsound := h.sound p hp
  simp only [act] at hact
  split at hact
  · rename_i hstage
    obtain rfl := Option.some.inj hact
    have hended := hsound.joined (.inl hstage.1)
    have hhandler : p.save .handler = none := by
      by_contra hsave
      simp [(hsound.last hsave).2] at hstage
    refine of_idle ?_ ?_ ?_
    · rintro _ ⟨rfl⟩
      exact ⟨hsound.shares, fun _ => hended, hsound.ended, fun hsave => absurd hhandler hsave⟩
    · rintro _ ⟨rfl⟩ who
      cases who with
      | thread => exact (hsound.ended hended).1
      | handler => exact hhandler
    · cases ok with
      | true => simp
      | false => exact h.file_snoc rfl rfl
  · exact absurd hact (by simp)

/-- **What one step of the process keeps.** -/
theorem of_act (hrun : run (step setup) {} ls = some s) (hact : act setup s p l = some s') :
    Explained setup (ls ++ [l]) s' := by
  have hsound := h.sound p hp
  cases l with
  | start unixMs now => exact absurd hact (by simp [act])
  | kill =>
    obtain rfl := Option.some.inj hact
    exact of_idle (by simp) (by simp) (h.file_snoc rfl rfl)
  | call i now c =>
    simp only [act] at hact
    split at hact
    · rename_i hkey
      obtain rfl := Option.some.inj hact
      exact h.of_save_eq hp ⟨hsound.shares.callShard hkey, hsound.joined, hsound.ended, hsound.last⟩
        rfl (by simp) (by simp) rfl
    · exact absurd hact (by simp)
  | beginSave who unixMs => exact h.of_beginSave hp hact
  | readShard who now => exact h.of_readShard hp hrun hact
  | openTmp who ok => exact h.of_openTmp hp hact
  | write who n => exact h.of_write hp hact
  | flush who ok => exact h.of_flush hp hact
  | rename who ok => exact h.of_rename hp hact
  | signal =>
    simp only [act] at hact
    split at hact
    · rename_i hstage
      obtain rfl := Option.some.inj hact
      refine h.of_save_eq hp ⟨hsound.shares, by simp, fun he => ⟨(hsound.ended he).1, rfl⟩, ?_⟩ rfl
        (by simp) (by simp) rfl
      intro hsave
      exact absurd (hstage.symm.trans (hsound.last hsave).1) (by decide)
    · exact absurd hact (by simp)
  | endThread =>
    simp only [act] at hact
    split at hact
    · rename_i hstop
      obtain rfl := Option.some.inj hact
      simp only [Bool.and_eq_true, Option.isNone_iff_eq_none] at hstop
      exact h.of_save_eq hp ⟨hsound.shares, fun _ => rfl, fun _ => ⟨hstop.2, hstop.1⟩, hsound.last⟩
        rfl (by simp) (by simp) rfl
    · exact absurd hact (by simp)
  | join =>
    simp only [act] at hact
    split at hact
    · rename_i hstage
      obtain rfl := Option.some.inj hact
      refine h.of_save_eq hp ⟨hsound.shares, fun _ => hstage.2, hsound.ended, ?_⟩ rfl
        (by simp) (by simp) rfl
      intro hsave
      exact ⟨rfl, (hsound.last hsave).2⟩
    · exact absurd hact (by simp)
  | remove ok => exact h.of_remove hp hact

end Act

/-- **What one step keeps.** -/
theorem of_step (h : Explained setup ls s) (hrun : run (step setup) {} ls = some s)
    (hstep : step setup s l = some s') : Explained setup (ls ++ [l]) s' := by
  cases hp : s.process with
  | some p => exact h.of_act hp hrun (act_of_step hstep hp)
  | none =>
    obtain ⟨unixMs, now, rfl, rfl⟩ := start_of_step hstep hp
    refine of_idle ?_ ?_ (h.file_snoc rfl rfl)
    · rintro _ ⟨rfl⟩
      exact sound_started setup s.file unixMs now
    · rintro _ ⟨rfl⟩ who
      rfl

/-- **What every run keeps.** -/
theorem of_run (hrun : run (step setup) {} ls = some s) : Explained setup ls s :=
  run_history (P := fun _ _ => True) (I := Explained setup)
    (fun _ _ _ _ hrun h _ hstep => h.of_step hrun hstep)
    ⟨by simp, by simp, by simp, by simp⟩ (along_true _ _) hrun

end Explained

/-! ## What a restart restores -/

/-- A file that is renamed is there. -/
theorem file_of_rename (h : Explained setup ls s)
    (hstep : step setup s (.rename who true) = some s') : ∃ file, s'.file = some file := by
  cases hp : s.process with
  | none =>
    obtain ⟨_, _, hl, -⟩ := start_of_step hstep hp
    exact absurd hl (by simp)
  | some p =>
    have hact := act_of_step hstep hp
    simp only [act] at hact
    split at hact
    · rename_i hsave
      obtain rfl := Option.some.inj hact
      obtain ⟨tmp, -, -, htmp, -⟩ := h.writing p hp who _ [] hsave rfl
      exact ⟨tmp, htmp⟩
    · exact absurd hact (by simp)

theorem file_of_step (h : step setup s l = some s') (hl : l.replacesFile = false) :
    s'.file = s.file := by
  cases hp : s.process with
  | none =>
    obtain ⟨unixMs, now, rfl, rfl⟩ := start_of_step h hp
    rfl
  | some p =>
    have hact := act_of_step h hp
    cases l with
    | rename who ok =>
      obtain rfl : ok = false := hl
      simp only [act] at hact
      split at hact
      · obtain rfl := Option.some.inj hact
        rfl
      · exact absurd hact (by simp)
    | remove ok =>
      obtain rfl : ok = false := hl
      simp only [act] at hact
      split at hact
      · obtain rfl := Option.some.inj hact
        rfl
      · exact absurd hact (by simp)
    | _ =>
      simp only [act] at hact
      repeat' split at hact
      all_goals first
        | (obtain rfl := Option.some.inj hact; rfl)
        | exact absurd hact (by simp)

/-- Every file that was renamed in a run along `ls` was removed later. -/
def AllRemoved (ls : List Label) : Prop :=
  ∀ who before after, ls = before ++ .rename who true :: after → .remove true ∈ after

theorem allRemoved_snoc (h : l = .remove true ∨ AllRemoved ls) (hl : ∀ who, l ≠ .rename who true) :
    AllRemoved (ls ++ [l]) := by
  intro who before after hls
  rcases List.eq_nil_or_concat after with rfl | ⟨after, l', rfl⟩
  · obtain ⟨-, hlast⟩ := List.append_inj' hls rfl
    exact absurd (by simpa using hlast) (hl who)
  · have hassoc : before ++ .rename who true :: after.concat l' =
        (before ++ .rename who true :: after) ++ [l'] := by simp
    obtain ⟨hinit, hlast⟩ := List.append_inj' (hls.trans hassoc) rfl
    obtain rfl : l = l' := by simpa using hlast
    rw [List.concat_eq_append, List.mem_append]
    rcases h with rfl | h
    · exact .inr (List.mem_singleton_self _)
    · exact .inl (h who before after hinit)

/-- **No complete file is lost**: if there is none, then the last one that was renamed was removed
when the node left. -/
theorem allRemoved_of_file_eq_none (hrun : run (step setup) {} ls = some s)
    (hfile : s.file = none) : AllRemoved ls := by
  revert hfile
  refine run_history (P := fun _ _ => True)
    (I := fun ls (s : Host) => s.file = none → AllRemoved ls) ?_ ?_ (along_true _ _) hrun
  · intro ls s l s' hrun ih _ hstep hnone
    cases hl : l.replacesFile with
    | false =>
      refine allRemoved_snoc (.inr (ih ((file_of_step hstep hl).symm.trans hnone))) ?_
      rintro who rfl
      exact absurd hl (by simp [Label.replacesFile])
    | true =>
      have hremove : l = .remove true := by
        cases l with
        | remove ok =>
          obtain rfl : ok = true := hl
          rfl
        | rename who ok =>
          -- the file that was just renamed is there
          obtain rfl : ok = true := hl
          obtain ⟨file, hsome⟩ := file_of_rename (.of_run hrun) hstep
          exact absurd (hnone.symm.trans hsome) (by simp)
        | _ => exact absurd hl (by simp [Label.replacesFile])
      exact allRemoved_snoc (.inl hremove) (by simp [hremove])
  · intro _ who before after hls
    simp at hls

/-- The lengths of keys and values are 32-bit numbers when they are saved, and both clocks count
nanoseconds in 63 bits. -/
def InRange (s : Host) : Label → Prop
  | .beginSave _ unixMs => 0 ≤ unixMs ∧ unixMs * 1000000 < 2 ^ 63
  | .readShard .. => ∀ p ∈ s.process, ∀ c ∈ p.cache.shards, ∀ n ∈ c.lru,
    n.key.length < 2 ^ 32 ∧ n.entry.value.length < 2 ^ 32 ∧
      ∀ deadline ∈ n.entry.expiresAt, deadline < 2 ^ 63
  | _ => True

instance InRange.decidable (s : Host) : ∀ l, Decidable (InRange s l)
  | .beginSave _ unixMs => inferInstanceAs (Decidable (0 ≤ unixMs ∧ unixMs * 1000000 < 2 ^ 63))
  | .readShard .. => inferInstanceAs (Decidable (∀ p ∈ s.process, ∀ c ∈ p.cache.shards,
      ∀ n ∈ c.lru, n.key.length < 2 ^ 32 ∧ n.entry.value.length < 2 ^ 32 ∧
        ∀ deadline ∈ n.entry.expiresAt, deadline < 2 ^ 63))
  | .start .. | .kill | .call .. | .openTmp .. | .write .. | .flush .. | .rename .. | .signal
  | .endThread | .join | .remove _ => .isTrue trivial

/-- What a save has read in a run is what a load can read back. -/
theorem Collected.readable (h : Collected setup ls who unixMs readings)
    (hrange : Along (step setup) InRange {} ls) (hrun : run (step setup) {} ls = some s)
    (hlength : readings.length = setup.count) :
    Snapshot.Readable setup.share setup.count unixMs readings := by
  obtain ⟨before, since, rfl, -, hread⟩ := h
  obtain ⟨s₀, hrun₀, -⟩ := run_append_eq_some.mp hrun
  have hbegin : InRange s₀ (.beginSave who unixMs) := (along_append hrange hrun₀).2.1
  -- the cache at each reading is that of a state on the way
  have hmoment (r : ShardedCache × Time) (hr : r ∈ readings) :
      ShardedCache.Shares setup.share setup.count r.1 ∧ ∀ k e, r.1.slot k = some e →
        k.length < 2 ^ 32 ∧ e.value.length < 2 ^ 32 ∧
          ∀ deadline ∈ e.expiresAt, deadline < 2 ^ 63 := by
    obtain ⟨i, hi⟩ := List.mem_iff_getElem?.mp hr
    obtain ⟨mid, after, s₁, p, rfl, hrun₁, hp, hcache⟩ := hread i r hi
    refine ⟨hcache ▸ ((Explained.of_run hrun₁).sound p hp).shares, ?_⟩
    intro k e he
    have hassoc : before ++ .beginSave who unixMs :: (mid ++ .readShard who r.2 :: after) =
        (before ++ .beginSave who unixMs :: mid) ++ .readShard who r.2 :: after := by simp
    rw [hassoc] at hrange
    have hnodes := (along_append hrange hrun₁).2.1 p hp
    rw [← hcache] at he
    obtain ⟨n, hn, rfl, rfl⟩ := (Cache.slot_eq_some (p.cache.shard_wellFormed k)).mp he
    exact hnodes _ (List.get_mem _ _) n hn
  exact {
    length := hlength
    shares := fun r hr => (hmoment r hr).1
    key := fun r hr k e he => ((hmoment r hr).2 k e he).1
    value := fun r hr k e he => ((hmoment r hr).2 k e he).2.1
    deadline := fun r hr k e deadline he hd => ((hmoment r hr).2 k e he).2.2 deadline hd
    epoch := hbegin.1
    clock := hbegin.2 }

theorem shards_emptyCache (setup : Setup) : setup.emptyCache.shards =
    List.replicate setup.count { capacity := setup.share, tombstoneTtl := setup.tombstoneTtl } :=
  rfl

/-- **A restart restores the last complete save.** In every run of a process that other threads work
on, that saves, fails to save, is killed at any point, is stopped and started again: what the next
start finds is a whole file, of the last save that was renamed, or there is no file, and then every
such save was followed by the removal of its file. It restores under every key what the shard of
the key held when that save read it, but for what has expired. -/
theorem restart_restores_last_save (setup : Setup) (hsize : setup.count * setup.share < 2 ^ 64)
    {unixMs : ℤ} {now : Time} (hrange : Along (step setup) InRange {} ls)
    (hrun : run (step setup) {} ls = some s)
    (hstart : step setup s (.start unixMs now) = some s') :
    ∃ p, s'.process = some p ∧
      (s.file = none → p.cache = setup.emptyCache ∧ AllRemoved ls) ∧
      ∀ file, s.file = some file → ∃ saveUnixMs readings,
        LastSave setup ls file saveUnixMs readings ∧
        ∀ k, p.cache.slot k = readings[Snapshot.indexOf setup.count k]?.bind fun r =>
          (r.1.slot k).bind
            (Snapshot.carried setup.tombstoneTtl saveUnixMs r.2 unixMs now) := by
  have hidle : s.process = none := by
    cases hp : s.process with
    | none => rfl
    | some p => exact absurd (act_of_step hstart hp) (by simp [act])
  obtain ⟨t, u, ⟨rfl, rfl⟩, rfl⟩ := start_of_step hstart hidle
  refine ⟨_, rfl, ?_, ?_⟩
  · intro hnone
    exact ⟨by rw [hnone]; rfl, allRemoved_of_file_eq_none hrun hnone⟩
  · intro file hfile
    obtain ⟨saveUnixMs, readings, hlast⟩ := (Explained.of_run hrun).file file hfile
    refine ⟨saveUnixMs, readings, hlast, ?_⟩
    obtain ⟨who, before, after, rfl, hcollected, hlength, rfl, -⟩ := hlast
    obtain ⟨s₁, hrun₁, -⟩ := run_append_eq_some.mp hrun
    have hreadable := hcollected.readable (along_append hrange hrun₁).1 hrun₁ hlength
    have hshare : 0 < setup.share := Nat.lt_of_lt_of_le Nat.zero_lt_one (le_max_right _ _)
    intro k
    rw [started, hfile, cache_loadSnapshot,
      Snapshot.decode_encode saveUnixMs (hreadable.fits hshare hsize)]
    exact Snapshot.slot_load_readings hreadable hshare (shards_emptyCache setup) k

/-- One shard for 64 entries. -/
def oneShard : Setup where
  capacity := 64
  shardCount := 1
  tombstoneTtl := 60000
  path := "cache.snap"

/-- A write is saved; another one comes while the file is written, and the process is killed in the
middle of the next save. -/
def killedInSave : List Label :=
  [.start 0 0, .call 0 5 (.apply [97] { value := [1], version := 3 }), .beginSave .thread 1000,
    .readShard .thread 7, .openTmp .thread true, .write .thread 20,
    .call 0 8 (.apply [97] { value := [2], version := 4 }), .write .thread 1000,
    .flush .thread true, .rename .thread true, .beginSave .thread 2000, .readShard .thread 9,
    .openTmp .thread true, .write .thread 20, .kill]

/-- The file of the first save is restored, and not what the second one has left. -/
theorem restart_restores_last_save_killedInSave :
    ∃ s s', run (step oneShard) {} killedInSave = some s ∧ s.file.isSome ∧ s.tmp.isSome ∧
      step oneShard s (.start 3000 11) = some s' ∧ ∃ p, s'.process = some p ∧
        (s.file = none → p.cache = oneShard.emptyCache ∧ AllRemoved killedInSave) ∧
        ∀ file, s.file = some file → ∃ saveUnixMs readings,
          LastSave oneShard killedInSave file saveUnixMs readings ∧
          ∀ k, p.cache.slot k = readings[Snapshot.indexOf oneShard.count k]?.bind fun r =>
            (r.1.slot k).bind
              (Snapshot.carried oneShard.tombstoneTtl saveUnixMs r.2 3000 11) := by
  have hseen : ((run (step oneShard) {} killedInSave).map fun s =>
      (s.file.isSome, s.tmp.isSome, s.process.isSome)) = some (true, true, false) := by decide
  obtain ⟨s, hrun, hs⟩ := Option.map_eq_some_iff.mp hseen
  simp only [Prod.mk.injEq, Option.isSome_eq_false_iff, Option.isNone_iff_eq_none] at hs
  obtain ⟨hfile, htmp, hprocess⟩ := hs
  have hstart : step oneShard s (.start 3000 11) =
      some { s with process := some (started oneShard s.file 3000 11) } := by
    simp [step, hprocess]
  exact ⟨s, _, hrun, hfile, htmp, hstart,
    restart_restores_last_save oneShard (by decide) (by decide) hrun hstart⟩

/-! ## A node that has left -/

/-- A process that has removed its file saves no more. -/
theorem finished_of_step (h : Explained setup ls s) (hfile : s.file = none)
    (hstage : ∀ p, s.process = some p → p.stage = .finished)
    (hl : ∀ unixMs now, l ≠ .start unixMs now) (hstep : step setup s l = some s') :
    s'.file = none ∧ ∀ p, s'.process = some p → p.stage = .finished := by
  cases hp : s.process with
  | none =>
    obtain ⟨unixMs, now, rfl, -⟩ := start_of_step hstep hp
    exact absurd rfl (hl unixMs now)
  | some p =>
    have hact := act_of_step hstep hp
    have hsound := h.sound p hp
    have hfinished := hstage p hp
    have hended := hsound.ended (hsound.joined (.inr hfinished))
    -- neither saver is at work, and neither can begin
    have hidle : ∀ who, p.save who = none := by
      rintro (_ | _)
      · exact hended.1
      · by_contra hsave
        exact absurd (hfinished.symm.trans (hsound.last hsave).1) (by decide)
    have hbegins : ∀ who, p.begins setup who = false := by
      rintro (_ | _)
      · simp [Process.begins, hended.2]
      · simp [Process.begins, hfinished]
    cases l with
    | kill =>
      obtain rfl := Option.some.inj hact
      exact ⟨hfile, by simp⟩
    | call i now c =>
      simp only [act] at hact
      split at hact
      · obtain rfl := Option.some.inj hact
        exact ⟨hfile, by rintro _ ⟨rfl⟩; exact hfinished⟩
      · exact absurd hact (by simp)
    | endThread =>
      simp only [act] at hact
      split at hact
      · obtain rfl := Option.some.inj hact
        exact ⟨hfile, by rintro _ ⟨rfl⟩; exact hfinished⟩
      · exact absurd hact (by simp)
    | _ => simp [act, hidle, hbegins, hfinished] at hact

/-- Nor does it in any number of steps, until the next process starts. -/
theorem finished_of_run {before after : List Label}
    (hrun : run (step setup) {} (before ++ .remove true :: after) = some s)
    (hafter : ∀ l ∈ after, ∀ unixMs now, l ≠ .start unixMs now) :
    s.file = none ∧ ∀ p, s.process = some p → p.stage = .finished := by
  induction after using List.reverseRecOn generalizing s with
  | nil =>
    obtain ⟨s₁, -, hlast⟩ := run_append_eq_some.mp hrun
    obtain ⟨s₂, hstep, hnil⟩ := run_cons_eq_some.mp hlast
    obtain rfl : s₂ = s := by simpa using hnil
    cases hp : s₁.process with
    | none =>
      obtain ⟨_, _, hl, -⟩ := start_of_step hstep hp
      exact absurd hl (by simp)
    | some p =>
      have hact := act_of_step hstep hp
      simp only [act] at hact
      split at hact
      · obtain rfl := Option.some.inj hact
        exact ⟨rfl, by rintro _ ⟨rfl⟩; rfl⟩
      · exact absurd hact (by simp)
  | append_singleton after l ih =>
    rw [← List.cons_append, ← List.append_assoc] at hrun
    obtain ⟨s₁, hrun₁, hlast⟩ := run_append_eq_some.mp hrun
    obtain ⟨s₂, hstep, hnil⟩ := run_cons_eq_some.mp hlast
    obtain rfl : s₂ = s := by simpa using hnil
    obtain ⟨hfile, hstage⟩ := ih hrun₁ fun l' hl' => hafter l' (List.mem_append_left _ hl')
    exact finished_of_step (.of_run hrun₁) hfile hstage
      (hafter l (List.mem_append_right _ (List.mem_singleton_self l))) hstep

/-- **A node that has left starts empty.** Once a process has handed over its entries and removed
its file, nothing that it still does brings the file back, whatever runs until it is gone; and so a
process that starts later does not bring back what the other nodes have taken over. -/
theorem left_restores_nothing {before after : List Label} {unixMs : ℤ} {now : Time}
    (hrun : run (step setup) {} (before ++ .remove true :: after) = some s)
    (hafter : ∀ l ∈ after, ∀ unixMs now, l ≠ .start unixMs now)
    (hstart : step setup s (.start unixMs now) = some s') :
    ∃ p, s'.process = some p ∧ p.cache = setup.emptyCache := by
  obtain ⟨hfile, -⟩ := finished_of_run hrun hafter
  have hidle : s.process = none := by
    cases hp : s.process with
    | none => rfl
    | some p => exact absurd (act_of_step hstart hp) (by simp [act])
  obtain ⟨t, u, ⟨rfl, rfl⟩, rfl⟩ := start_of_step hstart hidle
  exact ⟨_, rfl, by rw [started, hfile]; rfl⟩

/-- A signal comes while the thread saves; the handler waits for the save to end, and then leaves.
-/
def leftInSave : List Label :=
  [.start 0 0, .call 0 5 (.apply [97] { value := [1], version := 3 }), .beginSave .thread 1000,
    .signal, .readShard .thread 7, .openTmp .thread true, .write .thread 1000,
    .flush .thread true, .rename .thread true, .endThread, .join]

theorem left_restores_nothing_leftInSave :
    ∃ s s', run (step oneShard) {} (leftInSave ++
        .remove true :: [.call 0 8 (.apply [98] { value := [2], version := 4 }), .kill]) = some s ∧
      step oneShard s (.start 3000 11) = some s' ∧
        ∃ p, s'.process = some p ∧ p.cache = oneShard.emptyCache := by
  have hseen : ((run (step oneShard) {} (leftInSave ++
      .remove true :: [.call 0 8 (.apply [98] { value := [2], version := 4 }), .kill])).map
        fun s => s.process.isSome) = some false := by decide
  obtain ⟨s, hrun, hs⟩ := Option.map_eq_some_iff.mp hseen
  have hstart : step oneShard s (.start 3000 11) =
      some { s with process := some (started oneShard s.file 3000 11) } := by
    simp [step, Option.isNone_iff_eq_none.mp (Option.isSome_eq_false_iff.mp hs)]
  exact ⟨s, _, hrun, hstart, left_restores_nothing hrun (by simp) hstart⟩

end Persistence

end ShardCache
