/-!
# What can be wrong with a marked-up text

One cause per kind of fault. `Markup.Error.message` is the wording of each.
-/

namespace LoopDirectives.Markup

inductive Error where
  | unclosedTag
  | unclosedComment
  | unclosedData
  /-- The text ends inside a processing instruction, or an instruction holds nothing. -/
  | unclosedInstruction
  | unclosedDoctype
  | unnamedDoctype
  /-- The characters after `<!` begin no comment, data section or document type. -/
  | unknownMarkup
  /-- A reference has no `;` before the next reference, the next tag or the end. -/
  | unclosedReference
  | unknownReference (name : String)
  | missingEquals (name : String)
  | missingValue (name : String)
  | unquotedValue (name : String)
  | unclosedValue (name : String)
  | repeatedAttribute (name : String)
  | mismatchedEnd (expected found : String)
  | unmatchedEnd (found : String)
  | secondRoot
  | unexpectedEnd
  deriving DecidableEq

def Error.message : Error → String
  | unclosedTag => "tag not closed: `>` not found before end of input"
  | unclosedComment => "comment not closed: `-->` not found before end of input"
  | unclosedData => "character data not closed: `]]>` not found before end of input"
  | unclosedInstruction => "processing instruction not closed: `?>` not found before end of input"
  | unclosedDoctype => "document type declaration not closed: `>` not found before end of input"
  | unnamedDoctype => "document type declaration names no document type"
  | unknownMarkup => "unknown markup after `<!`"
  | unclosedReference => "reference without closing `;`"
  | unknownReference name => s!"unrecognized reference `{name}`"
  | missingEquals name => s!"attribute `{name}` is not followed by `=`"
  | missingValue name => s!"attribute `{name}` has no value"
  | unquotedValue name => s!"value of attribute `{name}` is not quoted"
  | unclosedValue name => s!"value of attribute `{name}` has no closing quote"
  | repeatedAttribute name => s!"repeated attribute `{name}`"
  | mismatchedEnd expected found => s!"expected end tag `{expected}`, found `{found}`"
  | unmatchedEnd found => s!"end tag `{found}` without a start tag"
  | secondRoot => "Document has more than one root element"
  | unexpectedEnd => "Unexpected end of document"

end LoopDirectives.Markup
