import AlgoBox.Value

/-!
# Faulty options

Why options are refused. Most causes are malformed values, which are reported
with a message that quotes the value. A value that cannot be quoted has no such
message, and a number past the range of doubles and an unknown option are misuse.
-/

namespace AlgoBox

/-- Why options are refused. -/
inductive OptionFault where
  | lengthNotText (quoted : String)
  | missingUnit (text : String)
  | notANumber (text : String)
  | notALength (text : String)
  | indentNotANumber (quoted : String)
  | indentNotALength (quoted : String)
  | unquotable
  | numberTooLarge
  | unknownOption (name : String)

/-- The fault of a value, told with the value quoted. Where the value cannot be quoted, this is
what goes wrong instead. -/
def OptionFault.of (fault : String → OptionFault) (value : Value) : OptionFault :=
  value.quoted?.elim unquotable fault

/-- The message of a malformed value. -/
def OptionFault.message : OptionFault → String
  | lengthNotText quoted => "Option unit error; expected a string like '1.4em', got " ++ quoted
  | missingUnit text => "Option unit error; no `em` found in " ++ Text.quoted text
  | notANumber text => "Option value error; " ++ Text.quoted text ++ " is not a number of em"
  | notALength text =>
    "Option value error; " ++ Text.quoted text ++ " must be a finite, non-negative length"
  | indentNotANumber quoted =>
    "Option value error; indent_size must be a number of em, got " ++ quoted
  | indentNotALength quoted =>
    "Option value error; indent_size must be a finite, non-negative length, got " ++ quoted
  | unquotable => "a whole number in the value has too many digits"
  | numberTooLarge => "the number is beyond every finite double"
  | unknownOption name => "unexpected option " ++ name

end AlgoBox
