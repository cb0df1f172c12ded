import IndexedTable.Key.Basic

/-! The bookmarks a scan has met, to tell the first entry of a record from later ones. -/

namespace IndexedTable

/-- A set of bookmarks. -/
structure SeenBookmarks where
  bookmarks : List Bookmark
  deriving DecidableEq, Repr

namespace SeenBookmarks

/-- The set without bookmarks. -/
def empty : SeenBookmarks := ⟨[]⟩

/-- Whether the bookmark was met. -/
def contains (seen : SeenBookmarks) (bookmark : Bookmark) : Bool :=
  seen.bookmarks.any fun other => decide (other = bookmark)

/-- Notes a bookmark, once. -/
def insert (seen : SeenBookmarks) (bookmark : Bookmark) : SeenBookmarks :=
  if seen.contains bookmark then seen else ⟨bookmark :: seen.bookmarks⟩

/-- The number of bookmarks met. -/
def size (seen : SeenBookmarks) : Nat := seen.bookmarks.length

/-- Whether no bookmark was met. -/
def isEmpty (seen : SeenBookmarks) : Bool := seen.bookmarks.isEmpty

end SeenBookmarks

end IndexedTable
