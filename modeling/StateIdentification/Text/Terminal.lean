/-!
# Terminal styles

Escape sequences that a terminal reads as a change of style.

## Main definitions

- `bold`, `blue`: a text between the sequences that switch its style on and off.
-/

namespace StateIdentification.Terminal

/-- The sequence that selects the style with the given code. -/
def style (code : Nat) : String := "\x1b[" ++ toString code ++ "m"

/-- Bold type, ended by a reset of all styles. -/
def bold (text : String) : String := style 1 ++ text ++ style 0

/-- Blue type, ended by a return to the default colour. -/
def blue (text : String) : String := style 34 ++ text ++ style 39

end StateIdentification.Terminal
