import IndexedTable.Store.Slot

/-! The records of one table, with one ordered index for each declared index. The clustering index
holds every record once, under the key that is also its bookmark: the primary key, or the number
of its insertion. Changes report their result together with the store they leave behind, also on
failure. -/

namespace IndexedTable

open scoped Power

/-- A record and its name. -/
structure StoredRecord where
  bookmark : Bookmark
  row : Row

/-- The order of records: by bookmark. -/
def StoredRecord.order (a b : StoredRecord) : Ordering := compare a.bookmark b.bookmark

instance : Std.TransCmp StoredRecord.order :=
  inferInstanceAs (Std.TransCmp (compareOn StoredRecord.bookmark))

/-- The store of a table. -/
structure Store where
  table : Table
  clustering : Slot
  /-- The other indices, in order of declaration. -/
  secondary : List Slot
  records : OrderedSet StoredRecord StoredRecord.order
  /-- The number of the next insertion, used where the table has no primary key. -/
  nextSequence : Nat

/-- A conformed row with the keys under which it is to be stored. -/
structure Placement where
  row : Row
  /-- The key in the clustering index. -/
  key : Key
  /-- The keys in each secondary index. -/
  keys : List KeySet

/-- The bookmark of the record: the bytes of its clustering key. -/
def Placement.bookmark (placement : Placement) : Bookmark := ⟨placement.key.bytes⟩

namespace Store

/-- The name of the clustering index of a table without a primary key. -/
def sequenceIndex : String := "$sequence"

/-- The clustering index of a table without a primary key. -/
def sequenceSlot (table : Table) : Slot where
  definition :=
    { IndexDefinition.standard sequenceIndex [] with table := table.name, primary := true }
  positions := []
  multiValued := none
  index := .empty sequenceIndex [⟨.int64, .ascending⟩] true

/-- The empty store of a table. -/
def create (table : Table) : Except IndexError Store := do
  let clustering ←
    match table.primaryKey? with
    | some key => Slot.create table key
    | none => .ok (sequenceSlot table)
  let secondary ← (table.indices.filter fun index => !index.primary).mapM (Slot.create table)
  return { table, clustering, secondary, records := .empty, nextSequence := 0 }

/-- The number of records. -/
def size (store : Store) : Nat := store.records.size

/-- Whether there are no records. -/
def isEmpty (store : Store) : Bool := store.records.isEmpty

/-- The values of a record. -/
def get? (store : Store) (bookmark : Bookmark) : Option Row :=
  (store.records.toList.find? fun record => decide (record.bookmark = bookmark)).map (·.row)

/-- Whether a record has the bookmark. -/
def contains (store : Store) (bookmark : Bookmark) : Bool := (store.get? bookmark).isSome

/-- The name of the clustering index. -/
def clusteringName (store : Store) : String := store.clustering.index.name

/-- The names of the indices, the clustering index first. -/
def indexNames (store : Store) : List String :=
  store.clusteringName :: store.secondary.map (·.index.name)

/-- The index of a name. The clustering index needs no name. -/
def slot (store : Store) : Option String → Except IndexError Slot
  | none => .ok store.clustering
  | some name =>
    if name = store.clusteringName then .ok store.clustering
    else
      match store.secondary.find? fun slot => slot.index.name == name with
      | some slot => .ok slot
      | none => .error (.unknownIndex name)

/-- The entries of a record in an index, in ascending order. -/
def entriesFor (store : Store) (slot : Slot) (bookmark : Bookmark) :
    Except IndexError (List Entry) :=
  match store.get? bookmark with
  | none => .ok []
  | some row =>
    if slot.index.name = store.clusteringName then .ok [.clustering bookmark]
    else do
      let keys ← slot.keysFor row
      return keys.toList.map fun key => ⟨key, bookmark⟩

/-- The key under which the clustering index would hold a new record. A primary key over a tuple
index takes the first of the row's keys. -/
def clusteringKey (store : Store) (row : Row) : Except IndexError Key :=
  if store.table.primaryKey?.isSome then do
    let keys ← store.clustering.keysFor row
    match keys.toList with
    | key :: _ => return key
    | [] => throw .recordNotFound
  else if store.nextSequence < 2 ^ (63 : Nat) then
    store.clustering.index.layout.makeKey [.int64 (.ofNat store.nextSequence)] .exact
  else .error (.keyTypeMismatch .int64 (toString store.nextSequence))

/-- The keys of a row in every secondary index. -/
def secondaryKeys (store : Store) (row : Row) : Except IndexError (List KeySet) :=
  store.secondary.mapM fun slot => slot.keysFor row

/-- Stores the entries of one record in several indices. Entries before the first failing one
stay. -/
def addToSlots (bookmark : Bookmark) : List Slot → List KeySet → Outcome (List Slot) Unit
  | slot :: slots, keys :: rest =>
    match slot.addKeys bookmark keys.toList with
    | (.error e, slot) => (.error e, slot :: slots)
    | (.ok (), slot) =>
      let (result, slots) := addToSlots bookmark slots rest
      (result, slot :: slots)
  | slots, _ => (.ok (), slots)

/-- Removes the entries of one record from several indices. -/
def eraseFromSlots (bookmark : Bookmark) : List Slot → List KeySet → List Slot
  | slot :: slots, keys :: rest =>
    slot.eraseKeys bookmark keys.toList :: eraseFromSlots bookmark slots rest
  | slots, _ => slots

/-- The store without a record and its entries. -/
def dropRecord (store : Store) (bookmark : Bookmark) (keys : List KeySet) : Store :=
  { store with
    secondary := eraseFromSlots bookmark store.secondary keys
    clustering :=
      { store.clustering with index := store.clustering.index.erase (.clustering bookmark) }
    records := store.records.filter fun record => decide (record.bookmark ≠ bookmark) }

/-- Stores a record and its entries, those of the clustering index first. Entries stored before an
error stay. -/
def addRecord (store : Store) (placement : Placement) : Outcome Store Bookmark :=
  let bookmark := placement.bookmark
  let (added, index) := store.clustering.index.insert ⟨placement.key, bookmark⟩
  let store := { store with clustering := { store.clustering with index := index } }
  match added with
  | .error e => (.error e, store)
  | .ok () =>
    let (added, secondary) := addToSlots bookmark store.secondary placement.keys
    let store := { store with secondary := secondary }
    match added with
    | .error e => (.error e, store)
    | .ok () =>
      (.ok bookmark, { store with records := store.records.insert ⟨bookmark, placement.row⟩ })

/-- Where a new record is to be stored. Its bookmark must be free. -/
def placeNew (store : Store) (row : Row) : Except IndexError Placement := do
  let row ← (store.table.conformRow row).mapError .schema
  let key ← store.clusteringKey row
  if store.contains ⟨key.bytes⟩ then throw (.duplicateKey store.clusteringName)
  let keys ← store.secondaryKeys row
  return ⟨row, key, keys⟩

/-- Stores a new record under its bookmark. Without a primary key, the next record has the next
number. -/
def insert (store : Store) (row : Row) : Outcome Store Bookmark :=
  match store.placeNew row with
  | .error e => (.error e, store)
  | .ok placement =>
    match store.addRecord placement with
    | (.error e, store) => (.error e, store)
    | (.ok bookmark, store) =>
      if store.table.primaryKey?.isSome then (.ok bookmark, store)
      else (.ok bookmark, { store with nextSequence := store.nextSequence + 1 })

/-- The keys of a record in the secondary indices, and where it is to be stored with new values. A
bookmark other than its own must be free; without a primary key the record keeps its own. -/
def placeAgain (store : Store) (bookmark : Bookmark) (row : Row) :
    Except IndexError (List KeySet × Placement) := do
  match store.get? bookmark with
  | none => throw .recordNotFound
  | some old =>
    let row ← (store.table.conformRow row).mapError .schema
    let key ←
      if store.table.primaryKey?.isSome then store.clusteringKey row else .ok ⟨bookmark.bytes⟩
    if key.bytes ≠ bookmark.bytes ∧ store.contains ⟨key.bytes⟩ then
      throw (.duplicateKey store.clusteringName)
    let oldKeys ← store.secondaryKeys old
    let keys ← store.secondaryKeys row
    return (oldKeys, ⟨row, key, keys⟩)

/-- Gives a record new values, and a new bookmark if its primary key changes. -/
def replace (store : Store) (bookmark : Bookmark) (row : Row) : Outcome Store Bookmark :=
  match store.placeAgain bookmark row with
  | .error e => (.error e, store)
  | .ok (oldKeys, placement) => (store.dropRecord bookmark oldKeys).addRecord placement

/-- Removes a record and returns its values. -/
def delete (store : Store) (bookmark : Bookmark) : Outcome Store Row :=
  match store.get? bookmark with
  | none => (.error .recordNotFound, store)
  | some row =>
    match store.secondaryKeys row with
    | .error e => (.error e, store)
    | .ok keys => (.ok row, store.dropRecord bookmark keys)

/-- Removes every record; insertions are numbered from the start again. -/
def clear (store : Store) : Store :=
  { store with
    clustering := store.clustering.clear
    secondary := store.secondary.map Slot.clear
    records := .empty
    nextSequence := 0 }

end Store

end IndexedTable
