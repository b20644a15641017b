import Lox.Json
import Lox.Token

/-! # Token listings

Tokens are listed one a line, with the name of the kind, the text, and what a
literal stands for, or as a document. The end of the input closes a listing
with a row of its own. -/

namespace Lox
namespace TokenKind

/-- The name of a kind in a listing. -/
def name : TokenKind → String
  | symbol s => s.name
  | keyword k => k.name
  | identifier => "IDENTIFIER"
  | string _ => "STRING"
  | number _ => "NUMBER"

/-- What a literal stands for. -/
def payload : TokenKind → String
  | string text => text
  | number value => Number.Format.listing.write value
  | _ => "null"

/-- A kind in a document: a literal carries its value. -/
def toJson (kind : TokenKind) : Json :=
  match kind with
  | string text => .object [(kind.name, .string text)]
  | number value => .object [(kind.name, .float value)]
  | _ => .string kind.name

end TokenKind

namespace Span

/-- A span in a document. -/
def toJson (span : Span) : Json :=
  .object [("start", .natural span.start), ("end", .natural span.stop)]

end Span

namespace Listing

/-- The name of the row that closes a listing. -/
def endName : String := "EOF"

/-- One row: kind, text, and what the text stands for. -/
def row (name lexeme payload : String) : String := name ++ " " ++ lexeme ++ " " ++ payload

/-- One row of a document. -/
def entry (kind : Json) (lexeme : String) (span : Span) : Json :=
  .object [("token_type", kind), ("lexeme", .string lexeme), ("span", span.toJson)]

end Listing

namespace Token

/-- The row of a token. -/
def row (t : Token) : String := Listing.row t.kind.name t.lexeme t.kind.payload

/-- A token in a document. -/
def toJson (t : Token) : Json := Listing.entry t.kind.toJson t.lexeme t.span

end Token

namespace TokenStream

/-- The row that closes a listing. -/
def endRow : String := Listing.row Listing.endName "" "null"

/-- All tokens of a text as a document, closed by the end of the input. -/
def toJson (s : TokenStream) : Json :=
  .array (s.tokens.map Token.toJson ++
    [Listing.entry (.string Listing.endName) "" (.point s.finish)])

end TokenStream
end Lox
