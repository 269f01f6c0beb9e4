import MiniOb.Index.Scanner
import MiniOb.Table.Create
import MiniOb.Table.Shared

/-! # The select behind a unique index

An insertion finds duplicates by a select (`do_unique_select`), which `find_index_for_scan` sends to the tree of the
unique index unless the column is nullable. -/

namespace MiniOb
open Slots

/-- The RIDs that the select for `v` on a column meets: for a nullable column those of the file, otherwise what the
    scanner delivers from the tree of the unique index; `locals` is what `satisfy_condition` finds in its dates. -/
def FieldMeta.Selects (f : FieldMeta) (live : List RID) (tree : BplusTreeHandler) (locals : Key → DateLocals)
    (v : Value) (rids : List RID) : Prop :=
  if f.nullable then rids = live
  else ∃ bound, ∀ fuel, bound ≤ fuel → ∃ rc tree',
    BplusTreeScanner.scan fuel locals .equalTo (some (firstN v.data f.len)) tree = some (.ok (rids, rc), tree')

namespace TrxTable

def start (fields : List FieldMeta) (uniqueIndexes : List Index) (lastId : Nat) : TrxTable :=
  ⟨⟨fields, fun _ => none, [], uniqueIndexes⟩, ⟨0, []⟩, lastId⟩

end TrxTable

end MiniOb
