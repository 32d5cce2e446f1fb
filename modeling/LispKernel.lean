import LispKernel.Base64
import LispKernel.Dict
import LispKernel.Double
import LispKernel.Double.Shortest
import LispKernel.ElemSet
import LispKernel.Env
import LispKernel.Equality
import LispKernel.Error
import LispKernel.Expr
import LispKernel.Hash
import LispKernel.Hash.Mix
import LispKernel.Hash.Word
import LispKernel.Heap
import LispKernel.Machine
import LispKernel.Metadata
import LispKernel.Name
import LispKernel.Namespace
import LispKernel.Native
import LispKernel.Native.Encoding
import LispKernel.Native.Library
import LispKernel.Native.Stream
import LispKernel.Render
import LispKernel.Run
import LispKernel.Seq.Walk
import LispKernel.Settings
import LispKernel.Text.Escape
import LispKernel.Utf8
import LispKernel.Value
import LispKernel.Value.Cast
import LispKernel.Var
import LispKernel.Vec
import LispKernel.World
import LispKernel.Proofs.Dict.FiniteMap
import LispKernel.Proofs.Dict.Outcome
import LispKernel.Proofs.Encoding.Base64
import LispKernel.Proofs.Encoding.Format
import LispKernel.Proofs.Encoding.Utf8
import LispKernel.Proofs.Equality.Agreement
import LispKernel.Proofs.Equality.Comparison
import LispKernel.Proofs.Equality.Laws
import LispKernel.Proofs.Equality.Failure
import LispKernel.Proofs.Equality.Relation
import LispKernel.Proofs.Equality.Strict
import LispKernel.Proofs.Evaluation.Depth
import LispKernel.Proofs.Evaluation.Provenance
import LispKernel.Proofs.Hash.Agreement
import LispKernel.Proofs.Lazy.Memo
import LispKernel.Proofs.Lazy.Supply
import LispKernel.Proofs.Lazy.Transparency
import LispKernel.Proofs.Matching
import LispKernel.Proofs.Outcome
import LispKernel.Proofs.Refinement.Machine
import LispKernel.Proofs.Refinement.Run
import LispKernel.Proofs.Refinement.Walk
import LispKernel.Proofs.Render.Text
import LispKernel.Proofs.Seq.Elements
import LispKernel.Proofs.Seq.Index
import LispKernel.Proofs.Seq.Walk
import LispKernel.Proofs.Table
import LispKernel.Proofs.Value.Built
import LispKernel.Proofs.Value.Content
import LispKernel.Proofs.Value.Expansion
import LispKernel.Proofs.Value.Inert
import LispKernel.Proofs.Value.Information
import LispKernel.Proofs.Value.Parts
import LispKernel.Proofs.Value.Reannotation
import LispKernel.Proofs.Evaluation.Coincidence
import LispKernel.Proofs.Namespace.Registry
import LispKernel.Proofs.Mirror.Run
import LispKernel.Proofs.Mirror.Walk
import LispKernel.Proofs.Mirror.Machine
import LispKernel.Proofs.Namespace.Resolution
import LispKernel.Proofs.Evaluation.Limit
import LispKernel.Proofs.Evaluation.Footprint
import LispKernel.Proofs.Evaluation.Definition
import LispKernel.Proofs.Dict.Merge
import LispKernel.Proofs.ElemSet.FiniteSet
import LispKernel.Proofs.Env.Scope
import LispKernel.Proofs.Seq.Count
import LispKernel.Proofs.Evaluation.Literal
import LispKernel.Proofs.Render.Limit
import LispKernel.Proofs.Lazy.Stream
import LispKernel.Proofs.Name.Reading
import LispKernel.Proofs.Vec.Index
import LispKernel.Proofs.Lookup
import LispKernel.Proofs.Dict.Views
import LispKernel.Proofs.Text.Quotation
import LispKernel.Proofs.Hash.Mixing
