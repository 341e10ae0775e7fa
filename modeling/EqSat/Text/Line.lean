/-!
# Lines

Only a line feed ends a line; form feeds, returns and the other separators are characters
like any other.  Of a text of several lines only the last that is not empty may be shown.
-/

namespace EqSat.Text

/-- The last line of a text, the line feeds at its end aside. -/
def lastLine (cs : List Char) : List Char :=
  ((cs.reverse.dropWhile (· == '\n')).takeWhile (· != '\n')).reverse

end EqSat.Text
