import IndexedTable.Index.Error

/-! The outcome of an operation on something that changes: a result or an error, together with
what the operation leaves behind. Keeping the state beside an error is what makes it a statement,
and not a convention, that a failed operation changes nothing. -/

namespace IndexedTable

/-- A result or an error, and the state afterwards. -/
abbrev Outcome (σ α : Type) := Except IndexError α × σ

end IndexedTable
