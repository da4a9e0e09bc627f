import LinkOrder.CommandLine
import LinkOrder.File.Error
import LinkOrder.File.Path
import LinkOrder.File.Sink
import LinkOrder.File.Tree
import LinkOrder.File.VisitOnce
import LinkOrder.Job.Basic
import LinkOrder.Job.Error
import LinkOrder.Job.Load
import LinkOrder.Link.Build
import LinkOrder.Link.Error
import LinkOrder.Link.Graph
import LinkOrder.Link.Report
import LinkOrder.Link.Resolve
import LinkOrder.Link.State
import LinkOrder.Link.Walk
import LinkOrder.LinkUnit
import LinkOrder.Log
import LinkOrder.Main
import LinkOrder.Markup.Attribute
import LinkOrder.Markup.Delivery
import LinkOrder.Markup.Document
import LinkOrder.Markup.Entity
import LinkOrder.Markup.Error
import LinkOrder.Markup.Event
import LinkOrder.Markup.Printer
import LinkOrder.Proofs.Bookkeeping
import LinkOrder.Proofs.Construction
import LinkOrder.Proofs.Failure
import LinkOrder.Proofs.Lifetime
import LinkOrder.Proofs.Missing
import LinkOrder.Proofs.Moves
import LinkOrder.Proofs.Reachability
import LinkOrder.Proofs.Recursion
import LinkOrder.Proofs.Resolution
import LinkOrder.Proofs.Retry
import LinkOrder.Proofs.Session
import LinkOrder.Proofs.Tally
import LinkOrder.Proofs.Traversal
import LinkOrder.Proofs.VisitOrder
import LinkOrder.SymbolSet
import LinkOrder.Text.Quoted
import LinkOrder.Text.Unprintable
import LinkOrder.Text.Utf8
import LinkOrder.UnitFile.Contents
import LinkOrder.UnitFile.Element
import LinkOrder.UnitFile.Error
import LinkOrder.UnitFile.Reader
import LinkOrder.Proofs.Simulation
import LinkOrder.Proofs.Locality
import LinkOrder.Proofs.Imports
import LinkOrder.Proofs.Passes
import LinkOrder.Proofs.Encoding
import LinkOrder.Proofs.Written
import LinkOrder.Proofs.ReadBack
import LinkOrder.Proofs.EventStream
import LinkOrder.Proofs.GraphAgreement
import LinkOrder.Proofs.Acceptance
import LinkOrder.Proofs.Requests
import LinkOrder.Proofs.Writing
import LinkOrder.Proofs.InputOrder
import LinkOrder.Proofs.ReportTree
import LinkOrder.Proofs.Rejection
import LinkOrder.Proofs.Cycles
import LinkOrder.Proofs.Leniency
import LinkOrder.Proofs.Idempotence
import LinkOrder.Proofs.Inheritance
import LinkOrder.Proofs.Markups
import LinkOrder.Proofs.Lockstep
import LinkOrder.Proofs.Unrecognised
import LinkOrder.Proofs.AttributeValues
import LinkOrder.Proofs.Spelling
import LinkOrder.Proofs.LoadFailure
import LinkOrder.Proofs.OpenedOnce
import LinkOrder.Proofs.CommandWords
import LinkOrder.Proofs.Footprint
import LinkOrder.Proofs.Turns
import LinkOrder.Proofs.Effort
import LinkOrder.Proofs.Effects
import LinkOrder.Proofs.ImportPaths
import LinkOrder.Proofs.Numerals
import LinkOrder.Proofs.ReadingEnds
