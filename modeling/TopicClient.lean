import TopicClient.Main
import TopicClient.Program.Transcript
import TopicClient.Proofs.Glob.Residuals
import TopicClient.Proofs.Registry.Ledger
import TopicClient.Proofs.Registry.Order
import TopicClient.Proofs.Registry.Turns
import TopicClient.Proofs.Http.Chain
import TopicClient.Proofs.Http.Hops
import TopicClient.Proofs.Http.Transfer
import TopicClient.Proofs.Registry.Frame
import TopicClient.Proofs.Client.Posting
import TopicClient.Proofs.Message.Batch
import TopicClient.Proofs.Client.Fetch
import TopicClient.Proofs.Glob.Encoding
import TopicClient.Proofs.Glob.ServerRule
import TopicClient.Proofs.Glob.Piece
import TopicClient.Proofs.Glob.Reading
import TopicClient.Proofs.Glob.Language
import TopicClient.Proofs.Glob.Blocks
import TopicClient.Proofs.Glob.Elastic
import TopicClient.Proofs.Glob.Filling
import TopicClient.Proofs.Glob.Trees
import TopicClient.Proofs.Glob.Agreement
import TopicClient.Proofs.Glob.Reception
import TopicClient.Proofs.Glob.Hierarchy
import TopicClient.Proofs.Glob.Ascii
import TopicClient.Proofs.Json.NumberText
import TopicClient.Proofs.Json.StringText
import TopicClient.Proofs.Json.ValueText
import TopicClient.Proofs.Json.ValueSyntax
import TopicClient.Proofs.Json.Nesting
import TopicClient.Proofs.Json.Printing
import TopicClient.Proofs.Json.Document
import TopicClient.Proofs.Message.Fields
import TopicClient.Proofs.Message.Schema
import TopicClient.Proofs.Message.EventText
import TopicClient.Proofs.Message.RoundTrip
import TopicClient.Proofs.Text.ByteOrder
import TopicClient.Proofs.Registry.Representation
import TopicClient.Proofs.Registry.Attempts
import TopicClient.Proofs.Client.Operation
import TopicClient.Proofs.Client.OnePost
import TopicClient.Proofs.Client.Runs
import TopicClient.Proofs.Registry.Recording
import TopicClient.Proofs.Registry.Interleaving
import TopicClient.Proofs.Client.Future
import TopicClient.Proofs.Client.Scene
import TopicClient.Proofs.Client.Announcing
import TopicClient.Proofs.Client.Sending
import TopicClient.Proofs.Client.Classification
import TopicClient.Proofs.Client.Independence
import TopicClient.Proofs.Url.Reading
import TopicClient.Proofs.Url.Segments
import TopicClient.Proofs.Url.Joining
import TopicClient.Proofs.Client.Reaching
import TopicClient.Proofs.Client.Continuity
import TopicClient.Proofs.Client.Secrecy
import TopicClient.Proofs.Client.Bodies
import TopicClient.Proofs.Polling.Schedule
import TopicClient.Proofs.Polling.Spacing
import TopicClient.Proofs.CommandLine.Payload
import TopicClient.Proofs.Program.Outcome
import TopicClient.Proofs.Registry.EventLine
import TopicClient.Proofs.Message.NoEvents
import TopicClient.Proofs.Message.SessionText
import TopicClient.Proofs.Client.Session
