import Mathlib

/-! The batch overlay of the libmw database: `OrderedMultimap`, `DBTable`, `DBTransaction` and
`Database` of `db/common`. Keys are strings; an item is kept as the value the store holds, so
that serializing it and reading it back is the identity. The store is what `DBWrapper::Read`
returns for each key, and a `DBBatch` is the list of its `Write`s and `Erase`s, which `Commit`
replays over the store in order. -/
namespace Pussycoin.Db

variable {V : Type}

/-- `OrderedMultimap`: for each key, the items inserted under it, the most recent last. -/
def OrderedMultimap (V : Type) := List Char → List V

namespace OrderedMultimap

def empty : OrderedMultimap V := fun _ => []

def insert (m : OrderedMultimap V) (key : List Char) (item : V) : OrderedMultimap V :=
  Function.update m key (m key ++ [item])

def find_last (m : OrderedMultimap V) (key : List Char) : Option V := (m key).getLast?

/-- Drops the most recent item of the key; `resize(size() - 1)` where there is one. -/
def erase (m : OrderedMultimap V) (key : List Char) : OrderedMultimap V :=
  Function.update m key (m key).dropLast

@[simp] theorem empty_apply (key : List Char) : (empty : OrderedMultimap V) key = [] := rfl

@[simp] theorem insert_apply (m : OrderedMultimap V) (key k : List Char) (item : V) :
    m.insert key item k = if k = key then m key ++ [item] else m k := by
  exact Function.update_apply m key _ k

@[simp] theorem erase_apply (m : OrderedMultimap V) (key k : List Char) :
    m.erase key k = if k = key then (m key).dropLast else m k := by
  exact Function.update_apply m key _ k

end OrderedMultimap

/-- A table is the character its keys start with, `m_prefix`. -/
structure DBTable where
  keyChar : Char

def DBTable.BuildKey (table : DBTable) (itemKey : List Char) : List Char := table.keyChar :: itemKey

structure DBEntry (V : Type) where
  key : List Char
  item : V

inductive BatchOp (V : Type)
  | write (key : List Char) (value : V)
  | erase (key : List Char)

/-- The store after `Commit`: the batch's operations applied in order, the last one on a key
deciding what it holds. -/
def commit (store : List Char → Option V) : List (BatchOp V) → List Char → Option V
  | [] => store
  | .write key value :: ops => commit (Function.update store key (some value)) ops
  | .erase key :: ops => commit (Function.update store key none) ops

theorem commit_append (store : List Char → Option V) (ops₁ ops₂ : List (BatchOp V)) :
    commit store (ops₁ ++ ops₂) = commit (commit store ops₁) ops₂ := by
  induction ops₁ generalizing store with
  | nil => rfl
  | cons op ops ih =>
    cases op with
    | write key value => exact ih _
    | erase key => exact ih _

@[simp] theorem commit_write (store : List Char → Option V) (ops : List (BatchOp V)) (key : List Char)
    (value : V) : commit store (ops ++ [.write key value]) = Function.update (commit store ops) key (some value) := by
  rw [commit_append]
  rfl

@[simp] theorem commit_erase (store : List Char → Option V) (ops : List (BatchOp V)) (key : List Char) :
    commit store (ops ++ [.erase key]) = Function.update (commit store ops) key none := by
  rw [commit_append]
  rfl

/-- `DBTransaction`: reads go to `store`, writes to `batch`, and `added` remembers the items put. -/
structure DBTransaction (V : Type) where
  store : List Char → Option V
  batch : List (BatchOp V)
  added : OrderedMultimap V

namespace DBTransaction

/-- A transaction as `Database` makes it, over an empty batch. -/
def fresh (store : List Char → Option V) : DBTransaction V := ⟨store, [], OrderedMultimap.empty⟩

def putOne (tx : DBTransaction V) (key : List Char) (item : V) : DBTransaction V :=
  { tx with batch := tx.batch ++ [.write key item], added := tx.added.insert key item }

def Put (tx : DBTransaction V) (table : DBTable) (entries : List (DBEntry V)) : DBTransaction V :=
  entries.foldl (fun tx entry => tx.putOne (table.BuildKey entry.key) entry.item) tx

/-- `Get` on a key already built: the last item added under it, else the store's value. -/
def getKey (tx : DBTransaction V) (key : List Char) : Option V :=
  match tx.added.find_last key with
  | some item => some item
  | none => tx.store key

def Get (tx : DBTransaction V) (table : DBTable) (key : List Char) : Option V :=
  tx.getKey (table.BuildKey key)

def Delete (tx : DBTransaction V) (table : DBTable) (key : List Char) : DBTransaction V :=
  { tx with batch := tx.batch ++ [.erase (table.BuildKey key)], added := tx.added.erase (table.BuildKey key) }

end DBTransaction

/-- The calls that change a transaction; `Get` only reads. -/
inductive Call (V : Type)
  | put (table : DBTable) (entries : List (DBEntry V))
  | delete (table : DBTable) (key : List Char)

def Call.apply (tx : DBTransaction V) : Call V → DBTransaction V
  | .put table entries => tx.Put table entries
  | .delete table key => tx.Delete table key

def run (tx : DBTransaction V) (calls : List (Call V)) : DBTransaction V := calls.foldl Call.apply tx

/-- The call deletes the built key `key`. -/
def Call.Deletes (key : List Char) : Call V → Prop
  | .put _ _ => False
  | .delete table k => table.BuildKey k = key

/-- `Database`: with a batch, every call goes to its transaction; without one, each write is a
batch of its own, committed at once. -/
structure Database (V : Type) where
  store : List Char → Option V
  tx : Option (DBTransaction V)

namespace Database

/-- The constructor: a `DBTransaction` over the store when a batch is given. -/
def make (store : List Char → Option V) (withBatch : Bool) : Database V :=
  ⟨store, if withBatch then some (DBTransaction.fresh store) else none⟩

def Get (db : Database V) (table : DBTable) (key : List Char) : Option V :=
  match db.tx with
  | some tx => tx.Get table key
  | none => db.store (table.BuildKey key)

/-- `none` where the code asserts that there are entries. -/
def Put (db : Database V) (table : DBTable) (entries : List (DBEntry V)) : Option (Database V) :=
  if entries = [] then none
  else match db.tx with
    | some tx => some { db with tx := some (tx.Put table entries) }
    | none => some { db with store := commit db.store ((DBTransaction.fresh db.store).Put table entries).batch }

def Delete (db : Database V) (table : DBTable) (key : List Char) : Database V :=
  match db.tx with
  | some tx => { db with tx := some (tx.Delete table key) }
  | none => { db with store := commit db.store ((DBTransaction.fresh db.store).Delete table key).batch }

/-- The calls on a database, `none` once one asserts. -/
def runCalls (db : Database V) : List (Call V) → Option (Database V)
  | [] => some db
  | .put table entries :: calls => (db.Put table entries).bind fun db => runCalls db calls
  | .delete table key :: calls => runCalls (db.Delete table key) calls

end Database

namespace DBTransaction

/-- What `Get` of a built key agrees on: the item the batch would leave there once committed. -/
def ReadsCommitted (tx : DBTransaction V) (key : List Char) : Prop :=
  tx.getKey key = commit tx.store tx.batch key

theorem getKey_putOne (tx : DBTransaction V) (key k : List Char) (item : V) :
    (tx.putOne key item).getKey k = if k = key then some item else tx.getKey k := by
  by_cases same : k = key
  · simp [getKey, putOne, OrderedMultimap.find_last, same]
  · simp [getKey, putOne, OrderedMultimap.find_last, same]

theorem putOne_readsCommitted {tx : DBTransaction V} {k : List Char} (reads : tx.ReadsCommitted k)
    (key : List Char) (item : V) : (tx.putOne key item).ReadsCommitted k := by
  unfold ReadsCommitted at reads ⊢
  rw [getKey_putOne]
  by_cases same : k = key
  · simp [putOne, same]
  · simp [putOne, same, reads]

theorem put_readsCommitted (table : DBTable) (entries : List (DBEntry V)) :
    ∀ {tx : DBTransaction V} {k : List Char}, tx.ReadsCommitted k → (tx.Put table entries).ReadsCommitted k := by
  induction entries with
  | nil => intro tx k reads; exact reads
  | cons entry entries ih =>
    intro tx k reads
    exact ih (putOne_readsCommitted reads _ _)

/-- A `Delete` of another key leaves the reading of `k` alone. -/
theorem delete_readsCommitted {tx : DBTransaction V} {k : List Char} (reads : tx.ReadsCommitted k)
    (table : DBTable) (key : List Char) (other : table.BuildKey key ≠ k) :
    (tx.Delete table key).ReadsCommitted k := by
  have differ : k ≠ table.BuildKey key := fun same => other same.symm
  unfold ReadsCommitted at reads ⊢
  simp [Delete, getKey, OrderedMultimap.find_last, differ] at reads ⊢
  exact reads

theorem fresh_readsCommitted (store : List Char → Option V) (k : List Char) :
    (fresh store).ReadsCommitted k := by
  simp [ReadsCommitted, fresh, getKey, OrderedMultimap.find_last, commit]

end DBTransaction

open DBTransaction

theorem run_readsCommitted {k : List Char} :
    ∀ (calls : List (Call V)) {tx : DBTransaction V}, (∀ c ∈ calls, ¬ c.Deletes k) →
      tx.ReadsCommitted k → (run tx calls).ReadsCommitted k := by
  intro calls
  induction calls with
  | nil => intro tx _ reads; exact reads
  | cons call calls ih =>
    intro tx untouched reads
    refine ih (fun c mem => untouched c (List.mem_cons_of_mem _ mem)) ?_
    cases call with
    | put table entries => exact put_readsCommitted table entries reads
    | delete table key => exact delete_readsCommitted reads table key (untouched _ List.mem_cons_self)

theorem store_put (tx : DBTransaction V) (table : DBTable) (entries : List (DBEntry V)) :
    (tx.Put table entries).store = tx.store := by
  induction entries generalizing tx with
  | nil => rfl
  | cons entry entries ih => exact ih _

theorem store_run (tx : DBTransaction V) (calls : List (Call V)) : (run tx calls).store = tx.store := by
  induction calls generalizing tx with
  | nil => rfl
  | cons call calls ih =>
    rw [run, List.foldl_cons, ← run, ih]
    cases call with
    | put table entries => exact store_put tx table entries
    | delete table key => rfl

/-- Read-your-writes for every key the batch never deletes: `Get` returns what the store would
hold once the batch so far is committed. -/
theorem get_run_of_not_deleted (store : List Char → Option V) (calls : List (Call V)) (table : DBTable)
    (key : List Char) (untouched : ∀ c ∈ calls, ¬ c.Deletes (table.BuildKey key)) :
    (run (fresh store) calls).Get table key = commit store (run (fresh store) calls).batch (table.BuildKey key) := by
  have reads := run_readsCommitted calls untouched (fresh_readsCommitted store (table.BuildKey key))
  unfold ReadsCommitted at reads
  rw [store_run] at reads
  exact reads

/-- A `Delete` pops one item of the overlay, where the committed batch erases the key: after two
puts and a delete, `Get` returns the first item, and the store would hold nothing. -/
theorem delete_uncovers_earlier_put (store : List Char → Option V) (table : DBTable) (key : List Char)
    (first second : V) :
    (run (fresh store) [.put table [⟨key, first⟩], .put table [⟨key, second⟩], .delete table key]).Get table key =
        some first ∧
      commit store (run (fresh store) [.put table [⟨key, first⟩], .put table [⟨key, second⟩], .delete table key]).batch
        (table.BuildKey key) = none := by
  -- the overlay keeps the first item; the batch ends with the erase
  have added : (run (fresh store) [.put table [⟨key, first⟩], .put table [⟨key, second⟩], .delete table key]).added
      (table.BuildKey key) = [first] := by
    simp [run, Call.apply, DBTransaction.Put, putOne, Delete, fresh]
  have batch : (run (fresh store) [.put table [⟨key, first⟩], .put table [⟨key, second⟩], .delete table key]).batch =
      [.write (table.BuildKey key) first, .write (table.BuildKey key) second, .erase (table.BuildKey key)] := by
    simp [run, Call.apply, DBTransaction.Put, putOne, Delete, fresh]
  constructor
  · rw [Get, getKey, OrderedMultimap.find_last, added]
    rfl
  · rw [batch]
    simp [commit]

/-- The overlay does not see its own erases: after a delete, `Get` falls back to the store. -/
theorem delete_reads_store (store : List Char → Option V) (table : DBTable) (key : List Char) :
    (run (fresh store) [.delete table key]).Get table key = store (table.BuildKey key) ∧
      commit store (run (fresh store) [.delete table key]).batch (table.BuildKey key) = none := by
  simp [run, Call.apply, Delete, Get, getKey, fresh, OrderedMultimap.find_last, commit]

/-- The operations a call adds to the batch. -/
def Call.ops : Call V → List (BatchOp V)
  | .put table entries => entries.map fun entry => .write (table.BuildKey entry.key) entry.item
  | .delete table key => [.erase (table.BuildKey key)]

theorem batch_put (tx : DBTransaction V) (table : DBTable) (entries : List (DBEntry V)) :
    (tx.Put table entries).batch = tx.batch ++ (Call.put table entries).ops := by
  induction entries generalizing tx with
  | nil => simp [DBTransaction.Put, Call.ops]
  | cons entry entries ih =>
    rw [DBTransaction.Put, List.foldl_cons, ← DBTransaction.Put, ih]
    simp [putOne, Call.ops]

theorem batch_run (tx : DBTransaction V) (calls : List (Call V)) :
    (run tx calls).batch = tx.batch ++ calls.flatMap Call.ops := by
  induction calls generalizing tx with
  | nil => simp [run]
  | cons call calls ih =>
    rw [run, List.foldl_cons, ← run, ih, List.flatMap_cons, ← List.append_assoc]
    cases call with
    | put table entries => rw [Call.apply, batch_put]
    | delete table key => rfl

namespace Database

/-- A database made with a batch is its transaction: every `Get` after a run of calls is the
transaction's. -/
theorem get_runCalls_batch {store : List Char → Option V} {calls : List (Call V)} {db : Database V}
    (ran : (make store true).runCalls calls = some db) (table : DBTable) (key : List Char) :
    db.Get table key = (run (fresh store) calls).Get table key := by
  have follows : ∀ (calls : List (Call V)) (db db' : Database V) (tx : DBTransaction V), db.tx = some tx →
      db.runCalls calls = some db' → db'.tx = some (run tx calls) := by
    intro calls
    induction calls with
    | nil =>
      intro db db' tx holds ran
      cases ran
      exact holds
    | cons call calls ih =>
      intro db db' tx holds ran
      cases call with
      | put table entries =>
        simp only [runCalls, Put, holds, Option.bind_eq_some_iff] at ran
        obtain ⟨mid, put, rest⟩ := ran
        split_ifs at put
        cases put
        exact ih _ _ _ rfl rest
      | delete table key =>
        simp only [runCalls, Delete, holds] at ran
        exact ih _ _ _ rfl ran
  rw [Get, follows calls _ db _ rfl ran]

/-- Without a batch every write is committed at once, so `Get` reads the writes so far. -/
theorem get_runCalls_direct {store : List Char → Option V} {calls : List (Call V)} {db : Database V}
    (ran : (make store false).runCalls calls = some db) (table : DBTable) (key : List Char) :
    db.Get table key = commit store (calls.flatMap Call.ops) (table.BuildKey key) := by
  have follows : ∀ (calls : List (Call V)) (db db' : Database V), db.tx = none →
      db.runCalls calls = some db' → db'.tx = none ∧ db'.store = commit db.store (calls.flatMap Call.ops) := by
    intro calls
    induction calls with
    | nil =>
      intro db db' direct ran
      cases ran
      exact ⟨direct, rfl⟩
    | cons call calls ih =>
      intro db db' direct ran
      cases call with
      | put table entries =>
        simp only [runCalls, Put, direct, Option.bind_eq_some_iff] at ran
        obtain ⟨mid, put, rest⟩ := ran
        split_ifs at put
        cases put
        obtain ⟨stillDirect, stored⟩ := ih _ _ rfl rest
        refine ⟨stillDirect, ?_⟩
        rw [stored, List.flatMap_cons, commit_append, batch_put]
        rfl
      | delete table key =>
        simp only [runCalls, Delete, direct] at ran
        obtain ⟨stillDirect, stored⟩ := ih _ _ rfl ran
        exact ⟨stillDirect, by rw [stored, List.flatMap_cons, commit_append]; rfl⟩
  obtain ⟨direct, stored⟩ := follows calls _ db rfl ran
  rw [Get, direct, stored]
  rfl

end Database

end Pussycoin.Db
