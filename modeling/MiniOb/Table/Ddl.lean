import MiniOb.Table.Catalog
import MiniOb.Table.Shared

/-! # CREATE TABLE and CREATE INDEX

`Db::create_table`, `Table::create`, `create_index` and `create_unique_index` with the files they make. The directory of
a database is a map from names to contents; what the system answers to each call that can fail comes with the
statement. -/

namespace MiniOb.Catalog

/-! ### Files -/

inductive Contents
  | empty
  | metadata (json : Json)
  | pages

abbrev Files := Bytes → Option Contents

def tableMetaFile (table : Bytes) : Bytes := table ++ ".table".toUTF8.toList

def tableDataFile (table : Bytes) : Bytes := table ++ ".data".toUTF8.toList

def indexDataFile (table index : Bytes) : Bytes := table ++ "-".toUTF8.toList ++ index ++ ".index".toUTF8.toList

def tmpMetaFile (table : Bytes) : Bytes := tableMetaFile table ++ ".tmp".toUTF8.toList

structure CreateAnswers where
  /-- `open` with `O_EXCL`, if there is no such file. -/
  created : Bool
  /-- The code of the calls that write the header page. -/
  written : RC

namespace Files

def write (files : Files) (name : Bytes) (contents : Contents) : Files := Function.update files name (some contents)

def rename (files : Files) (source target : Bytes) : Files :=
  Function.update (Function.update files target (files source)) source none

def createFile (files : Files) (name : Bytes) (a : CreateAnswers) : RC × Files :=
  if (files name).isSome ∨ a.created = false then (.schemaDbExist, files)
  else if a.written ≠ .success then (a.written, files.write name .empty)
  else (.success, files.write name .pages)

end Files

/-! ### The database -/

/-- The field as the records of a table are described by it, with offsets from behind the system field. -/
def FieldMeta.behindSystem (f : FieldMeta) : MiniOb.FieldMeta := ⟨f.type, (f.offset - 4).toNat, f.len.toNat, f.nullable⟩

/-- A `Table` object: its `table_meta_`, and its records with the indexes in memory. -/
structure OpenTable where
  tableMeta : TableMeta
  table : Table

/-- `Db`, with its directory. -/
structure Db where
  files : Files
  openedTables : Bytes → Option OpenTable

structure TableAnswers where
  /-- `open` of the metadata file with `O_EXCL`, if there is no such file. -/
  metaCreated : Bool
  metaOpened : Bool
  data : CreateAnswers
  handler : RC

structure IndexAnswers where
  file : CreateAnswers
  root : RC
  tmpOpened : Bool
  dumped : Bool
  renamed : Bool

namespace Db

def setTable (db : Db) (name : Bytes) (o : OpenTable) : Db :=
  { db with openedTables := Function.update db.openedTables name (some o) }

def tableCreate (files : Files) (name : Bytes) (attributes : List AttrInfo) (a : TableAnswers) :
    Except RC OpenTable × Files :=
  if isBlank name then (.error .invalidArgument, files)
  else if attributes = [] then (.error .invalidArgument, files)
  else if (files (tableMetaFile name)).isSome then (.error .schemaTableExist, files)
  else if a.metaCreated = false then (.error .ioerr, files)
  else
    let files := files.write (tableMetaFile name) .empty
    match TableMeta.init name attributes with
    | .error rc => (.error rc, files)
    | .ok tableMeta =>
      if a.metaOpened = false then (.error .ioerr, files)
      else
        let files := files.write (tableMetaFile name) (.metadata tableMeta.serialize)
        match files.createFile (tableDataFile name) a.data with
        | (.success, files) =>
          if a.handler ≠ .success then (.error a.handler, files)
          else (.ok ⟨tableMeta, ⟨tableMeta.fields.tail.map FieldMeta.behindSystem, fun _ => none, [], []⟩⟩, files)
        | (rc, files) => (.error rc, files)

def createTable (db : Db) (name : Bytes) (attributes : List AttrInfo) (a : TableAnswers) : RC × Db :=
  if (db.openedTables name).isSome then (.schemaTableExist, db)
  else match tableCreate db.files name attributes a with
    | (.error rc, files) => (rc, { db with files })
    | (.ok table, files) => (.success, { db with files }.setTable name table)

/-- What `create_index` and `create_unique_index` do once the index is described: the file, the entries of the records
    that the scan meets, the list in memory and the metadata. -/
def installIndex (db : Db) (name : Bytes) (o : OpenTable) (index : IndexMeta) (filled : RC × Index)
    (push : Table → Index → Table) (add : TableMeta → IndexMeta → TableMeta) (a : IndexAnswers) : RC × Db :=
  match db.files.createFile (indexDataFile o.tableMeta.name index.name) a.file with
  | (.success, files) =>
    if a.root ≠ .success then (a.root, { db with files })
    else if filled.1 ≠ .success then (filled.1, { db with files })
    else
      let table := push o.table filled.2
      let tableMeta := add o.tableMeta index
      let db := { db with files }.setTable name { o with table }
      if a.tmpOpened = false then (.ioerr, db)
      else if a.dumped = false then (.ioerr, { db with files := files.write (tmpMetaFile o.tableMeta.name) .empty })
      else
        let files := files.write (tmpMetaFile o.tableMeta.name) (.metadata tableMeta.serialize)
        if a.renamed = false then (.ioerr, { db with files })
        else
          let files := files.rename (tmpMetaFile o.tableMeta.name) (tableMetaFile o.tableMeta.name)
          (.success, { db with files }.setTable name ⟨tableMeta, table⟩)
  | (rc, files) => (rc, { db with files })

/-- `DefaultHandler::create_index`, which turns the list of the attributes round, and `Table::create_index`. -/
def createIndex (db : Db) (trxId : Nat) (name indexName : Bytes) (attributes : List Bytes) (scan : Scan)
    (a : IndexAnswers) : RC × Db :=
  match db.openedTables name with
  | none => (.schemaTableNotExist, db)
  | some o =>
    if isBlank indexName ∨ attributes = [] then (.invalidArgument, db)
    else if (o.tableMeta.index indexName).isSome ∨ (o.tableMeta.findIndexByFields attributes.reverse).isSome then
      (.schemaIndexExist, db)
    else match attributes.reverse.mapM o.tableMeta.field with
      | none => (.schemaFieldMissing, db)
      | some fields => match IndexMeta.init indexName fields with
        | .error rc => (rc, db)
        | .ok index =>
          db.installIndex name o index
            (o.table.fillIndex trxId scan.finish scan.rids ⟨fields.map FieldMeta.behindSystem, ∅⟩)
            (fun t i => { t with indexes := t.indexes ++ [i] }) TableMeta.addIndex a

/-- `DefaultHandler::create_unique_index` and `Table::create_unique_index`. The values are compared first, in a select
    of the RIDs `selected` without a transaction. -/
def createUniqueIndex (db : Db) (trxId : Nat) (name indexName attributeName : Bytes) (selected : List RID) (scan : Scan)
    (a : IndexAnswers) : RC × Db :=
  match db.openedTables name with
  | none => (.schemaTableNotExist, db)
  | some o =>
    if isBlank indexName ∨ isBlank attributeName then (.invalidArgument, db)
    else if (o.tableMeta.index indexName).isSome ∨ (o.tableMeta.findIndexByFields [attributeName]).isSome then
      (.schemaIndexExist, db)
    else match o.tableMeta.field attributeName with
      | none => (.schemaFieldMissing, db)
      | some f =>
        if hasDuplicate (selected.filterMap fun rid => (o.table.records rid).map fun r =>
          f.behindSystem.tupleValue r.data) then
          (.schemaIndexExist, db)
        else match IndexMeta.init indexName [f] with
          | .error rc => (rc, db)
          | .ok index =>
            db.installIndex name o index (o.table.fillIndex trxId scan.finish scan.rids ⟨[f.behindSystem], ∅⟩)
              (fun t i => { t with uniqueIndexes := t.uniqueIndexes ++ [i] }) TableMeta.addUniqueIndex a

inductive Statement
  | createTable (name : Bytes) (attributes : List AttrInfo) (answers : TableAnswers)
  | createIndex (trxId : Nat) (table index : Bytes) (attributes : List Bytes) (scan : Scan) (answers : IndexAnswers)
  | createUniqueIndex (trxId : Nat) (table index attributeName : Bytes) (selected : List RID) (scan : Scan)
      (answers : IndexAnswers)

def exec (db : Db) : Statement → RC × Db
  | .createTable name attributes answers => db.createTable name attributes answers
  | .createIndex trxId table index attributes scan answers => db.createIndex trxId table index attributes scan answers
  | .createUniqueIndex trxId table index attributeName selected scan answers =>
    db.createUniqueIndex trxId table index attributeName selected scan answers

end Db

end MiniOb.Catalog
