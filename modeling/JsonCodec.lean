import JsonCodec.Unicode.Space
import JsonCodec.Unicode.Printable
import JsonCodec.Unicode.GraphemeExtend
import JsonCodec.Unicode.Utf8
import JsonCodec.Unicode.Utf16
import JsonCodec.Number.Double
import JsonCodec.Number.Decimal
import JsonCodec.Number.Round
import JsonCodec.Number.Shortest
import JsonCodec.Text.Quoted
import JsonCodec.Token
import JsonCodec.Error
import JsonCodec.Source
import JsonCodec.Scanner.Lexeme
import JsonCodec.Scanner.Escape
import JsonCodec.Scanner.StringLiteral
import JsonCodec.Scanner.Basic
import JsonCodec.Value
import JsonCodec.Writer.Number
import JsonCodec.Writer.Escape
import JsonCodec.Writer.Basic
import JsonCodec.Reader.Basic
import JsonCodec.Reader.Schema
import JsonCodec.Number.Parse
import JsonCodec.Tree.Source
import JsonCodec.Document
import JsonCodec.Proofs.Tree.Walk
import JsonCodec.Proofs.Run
import JsonCodec.Proofs.Walk
import JsonCodec.Proofs.Reader.Walk
import JsonCodec.Proofs.Reader.Plan
import JsonCodec.Proofs.Unicode.Utf8
import JsonCodec.Proofs.Number.Round
import JsonCodec.Proofs.Grammar
import JsonCodec.Proofs.Scanner.Lexeme
import JsonCodec.Proofs.Scanner.StringLiteral
import JsonCodec.Proofs.Scanner.Lexed
import JsonCodec.Proofs.Scanner.Number
import JsonCodec.Proofs.Scanner.Step
import JsonCodec.Proofs.Scanner.Reads
import JsonCodec.Proofs.Scanner.Walk
import JsonCodec.Proofs.Cursor
import JsonCodec.Proofs.Parse
import JsonCodec.Proofs.Writer.Value
import JsonCodec.Proofs.Writer.Loop
import JsonCodec.Proofs.Writer.Script
import JsonCodec.Proofs.Writer.Session
import JsonCodec.Proofs.Reader.Skip
import JsonCodec.Proofs.Reader.Sources
import JsonCodec.Proofs.Reader.Fuel
import JsonCodec.Proofs.Scanner.Lookahead
import JsonCodec.Proofs.Reader.Client
import JsonCodec.Proofs.Reader.Peek
import JsonCodec.Proofs.Number.Literal
import JsonCodec.Proofs.Tree.Read
import JsonCodec.Proofs.Reader.Required
import JsonCodec.Proofs.Writer.Quote
import JsonCodec.Proofs.Writer.ByteWalk
import JsonCodec.Proofs.Writer.Ascii
import JsonCodec.Proofs.Reader.Typed
import JsonCodec.Proofs.Number.Integer
import JsonCodec.Proofs.Writer.ReadBack
import JsonCodec.Proofs.Reader.Refusal
import JsonCodec.Proofs.Reader.Protocol
import JsonCodec.Proofs.Reader.Alike
import JsonCodec.Proofs.Reader.Twinned
import JsonCodec.Proofs.Reader.Coerce
import JsonCodec.Proofs.Scanner.UnicodeEscape
import JsonCodec.Proofs.Scanner.Bounds
import JsonCodec.Proofs.Scanner.TextInput
import JsonCodec.Proofs.Tree.Frames
