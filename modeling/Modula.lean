import Modula.LineMap
import Modula.LineMap.Table
import Modula.Lexer
import Modula.Lexer.Lookahead
import Modula.Lexer.Skip
import Modula.Node.Walk
import Modula.Node.Iterator
import Modula.Json.Encode
import Modula.Json.Decode
import Modula.Report
import Modula.Machine
import Modula.Proofs.Grammar.Unit
import Modula.Proofs.Acceptance
import Modula.Proofs.Lexer.Lossless
import Modula.Proofs.Lexer.Written
import Modula.Proofs.Lexer.Stream
import Modula.Proofs.Lexer.Lines
import Modula.Proofs.Lexer.Gaps
import Modula.Proofs.Lexer.Blanking
import Modula.Proofs.Lexer.Scan
import Modula.Proofs.Lexer.Values
import Modula.Proofs.Lexer.Comments
import Modula.Proofs.Written.Unit
import Modula.Proofs.RoundTrip
import Modula.Proofs.Recovery.Spoiled
import Modula.Proofs.Recovery.Features
import Modula.Proofs.Recovery.End
import Modula.Proofs.Recovery.FirstError
import Modula.Proofs.Recovery.Blame
import Modula.Proofs.Recovery.Unclosed
import Modula.Proofs.Layout.Walk
import Modula.Proofs.Numbering.Unit
import Modula.Proofs.Forms.Slice
import Modula.Proofs.Abreast.Respelled
import Modula.Proofs.Abreast.Chain
import Modula.Proofs.Machine.Calls
import Modula.Proofs.Json.Faithful
import Modula.Proofs.Bounds
import Modula.Proofs.Reading.Exact
import Modula.Proofs.LineMap.Texts
import Modula.Proofs.Reading.IndexList
import Modula.Proofs.Walk.Contents
import Modula.Proofs.Fields
