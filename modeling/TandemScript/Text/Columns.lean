/-!
# Columns

Text set flush right or flush left in a column of a given width. A text longer than its column is
written whole.
-/

namespace TandemScript.Text

/-- Flush right, filled on the left. -/
def alignRight (width : Nat) (s : String) (fill : Char := ' ') : String :=
  "".pushn fill (width - s.length) ++ s

/-- Flush left, filled on the right. -/
def alignLeft (width : Nat) (s : String) (fill : Char := ' ') : String :=
  s.pushn fill (width - s.length)

end TandemScript.Text
