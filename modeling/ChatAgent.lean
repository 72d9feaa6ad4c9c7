import ChatAgent.Agent.Config
import ChatAgent.Agent.Process
import ChatAgent.Agent.Request
import ChatAgent.Agent.Run
import ChatAgent.Backend.Chunk
import ChatAgent.Backend.Remote
import ChatAgent.Backend.Reply
import ChatAgent.Backend.Request
import ChatAgent.Backend.Stream
import ChatAgent.Backend.Turn
import ChatAgent.Calculator.Arithmetic
import ChatAgent.Calculator.Evaluation
import ChatAgent.Calculator.Function
import ChatAgent.Calculator.Lexer
import ChatAgent.Calculator.Token
import ChatAgent.Conversation
import ChatAgent.Duration
import ChatAgent.Event
import ChatAgent.Event.Channel
import ChatAgent.Event.Recorder
import ChatAgent.Failure
import ChatAgent.Http.Exchange
import ChatAgent.Http.Status
import ChatAgent.Http.Url
import ChatAgent.Json.Basic
import ChatAgent.Json.Document
import ChatAgent.Json.Literal
import ChatAgent.Json.Reader
import ChatAgent.Json.Record
import ChatAgent.Json.Text
import ChatAgent.Json.Token
import ChatAgent.Main
import ChatAgent.Number.Basic
import ChatAgent.Number.Binary
import ChatAgent.Number.Layout
import ChatAgent.Number.Shortest
import ChatAgent.Proofs.Answer
import ChatAgent.Proofs.Batch
import ChatAgent.Proofs.Cap
import ChatAgent.Proofs.ChunkLine
import ChatAgent.Proofs.CommonDivisor
import ChatAgent.Proofs.Course
import ChatAgent.Proofs.Cursor
import ChatAgent.Proofs.Delegation
import ChatAgent.Proofs.Delivery
import ChatAgent.Proofs.Departure
import ChatAgent.Proofs.Dispatch
import ChatAgent.Proofs.Division
import ChatAgent.Proofs.EndMark
import ChatAgent.Proofs.EventLine
import ChatAgent.Proofs.Expression
import ChatAgent.Proofs.ExpressionTree
import ChatAgent.Proofs.Extremes
import ChatAgent.Proofs.FloatArithmetic
import ChatAgent.Proofs.FloatOfDecimal
import ChatAgent.Proofs.FloatOfInteger
import ChatAgent.Proofs.FloatText
import ChatAgent.Proofs.Framing
import ChatAgent.Proofs.Grammar
import ChatAgent.Proofs.IndexedLexer
import ChatAgent.Proofs.IntegerPower
import ChatAgent.Proofs.IntegerTree
import ChatAgent.Proofs.JsonGrammar
import ChatAgent.Proofs.JsonText
import ChatAgent.Proofs.LocalCode
import ChatAgent.Proofs.Merging
import ChatAgent.Proofs.Names
import ChatAgent.Proofs.NearestFloat
import ChatAgent.Proofs.Numeral
import ChatAgent.Proofs.Origin
import ChatAgent.Proofs.Overflow
import ChatAgent.Proofs.PowerOfTen
import ChatAgent.Proofs.Process
import ChatAgent.Proofs.Records
import ChatAgent.Proofs.Registration
import ChatAgent.Proofs.Replay
import ChatAgent.Proofs.Reply
import ChatAgent.Proofs.RoundTrip
import ChatAgent.Proofs.Rounding
import ChatAgent.Proofs.RoundingInterval
import ChatAgent.Proofs.Scanning
import ChatAgent.Proofs.Schedule
import ChatAgent.Proofs.Secrecy
import ChatAgent.Proofs.Settings
import ChatAgent.Proofs.ShortestDigits
import ChatAgent.Proofs.Spelling
import ChatAgent.Proofs.Tens
import ChatAgent.Proofs.TokenBoundary
import ChatAgent.Proofs.ToolCalls
import ChatAgent.Proofs.Traffic
import ChatAgent.Proofs.Trimming
import ChatAgent.Proofs.UncheckedArithmetic
import ChatAgent.Proofs.Utf8
import ChatAgent.Proofs.Wire
import ChatAgent.Proofs.Words
import ChatAgent.Proofs.Work
import ChatAgent.Server.Chat
import ChatAgent.Server.Passthrough
import ChatAgent.Server.Router
import ChatAgent.Server.Settings
import ChatAgent.Server.Startup
import ChatAgent.Service.Execution
import ChatAgent.Service.Fault
import ChatAgent.Service.Interpreter
import ChatAgent.Text.Blank
import ChatAgent.Text.Hidden
import ChatAgent.Text.Lines
import ChatAgent.Text.Quoted
import ChatAgent.Text.Utf8
import ChatAgent.Tool.Activity
import ChatAgent.Tool.Builtin
import ChatAgent.Tool.Call
import ChatAgent.Tool.Definition
import ChatAgent.Tool.Outcome
import ChatAgent.Tool.Registry
import ChatAgent.Tool.Sample
