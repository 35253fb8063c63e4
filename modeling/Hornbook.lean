import Hornbook.Session
import Hornbook.Counterexample.Json
import Hornbook.Event.Log
import Hornbook.Sexp.Reader
import Hornbook.Smt.Name
import Hornbook.Smt.Reader
import Hornbook.Smt.Script.Reader
import Hornbook.Proofs.Policy
import Hornbook.Proofs.Sexp.Reader
import Hornbook.Proofs.Json.RoundTrip
import Hornbook.Proofs.Json.Literal
import Hornbook.Proofs.Smt.Alike
import Hornbook.Proofs.Smt.ReadBack
import Hornbook.Proofs.Smt.Script
import Hornbook.Proofs.Smt.BitPattern
import Hornbook.Proofs.Registry.Effect
import Hornbook.Proofs.Registry.Run
import Hornbook.Proofs.Registry.Growth
import Hornbook.Proofs.Registry.Names
import Hornbook.Proofs.Registry.History
import Hornbook.Proofs.Registry.Identity
import Hornbook.Proofs.Registry.Declared
import Hornbook.Proofs.Registry.Layout
import Hornbook.Proofs.Registry.Creation
import Hornbook.Proofs.Registry.Reuse
import Hornbook.Proofs.Registry.Application
import Hornbook.Proofs.Registry.ScriptGrowth
import Hornbook.Proofs.Registry.Views
import Hornbook.Proofs.Registry.Policy
import Hornbook.Proofs.Registry.Log
import Hornbook.Proofs.Registry.Renaming
import Hornbook.Proofs.Registry.Order
import Hornbook.Proofs.Counterexample.Call
import Hornbook.Proofs.Counterexample.Path
import Hornbook.Proofs.Counterexample.Json
import Hornbook.Proofs.Session.Run
import Hornbook.Proofs.Session.Identity
import Hornbook.Proofs.Session.Traces
import Hornbook.Proofs.Session.Reset
import Hornbook.Proofs.Session.Failure
import Hornbook.Proofs.Counterexample.State
import Hornbook.Proofs.Counterexample.OneContract
import Hornbook.Proofs.Counterexample.Text
import Hornbook.Proofs.Session.Independence
import Hornbook.Proofs.Json.Spelling
import Hornbook.Proofs.Json.Grammar
import Hornbook.Proofs.Json.Record
import Hornbook.Proofs.Counterexample.Reading
import Hornbook.Proofs.Sexp.Comment
import Hornbook.Proofs.Smt.Comment
