import CodeGraph.Ast.Basic
import CodeGraph.Ast.Preorder
import CodeGraph.CommandLine.Arguments
import CodeGraph.CommandLine.Run
import CodeGraph.Config
import CodeGraph.Config.Format
import CodeGraph.Conversion.Basic
import CodeGraph.Conversion.EdgeWalk
import CodeGraph.Conversion.Error
import CodeGraph.Cst.Abstraction
import CodeGraph.Cst.Basic
import CodeGraph.Cst.Format
import CodeGraph.Cst.Outline
import CodeGraph.Cst.Scope
import CodeGraph.Cst.Shape
import CodeGraph.Cst.TypeNames
import CodeGraph.Decimal.Binary64
import CodeGraph.Decimal.Shortest
import CodeGraph.Files.Path
import CodeGraph.Files.Tree
import CodeGraph.Glob.Basic
import CodeGraph.Glob.Matching
import CodeGraph.Glob.Reading
import CodeGraph.Glob.Regex
import CodeGraph.Graph.Basic
import CodeGraph.Graph.Document
import CodeGraph.Graph.Dot
import CodeGraph.Graph.Format
import CodeGraph.Graph.Property
import CodeGraph.Ignore.Rule
import CodeGraph.Ignore.Walk
import CodeGraph.Json.Basic
import CodeGraph.Json.Number
import CodeGraph.Json.Reading
import CodeGraph.Json.Shape
import CodeGraph.Language.Basic
import CodeGraph.Language.Detection
import CodeGraph.Language.Go
import CodeGraph.Language.Java
import CodeGraph.Language.Python
import CodeGraph.Language.Rust
import CodeGraph.Main
import CodeGraph.Mismatch
import CodeGraph.Project.Build
import CodeGraph.Project.Error
import CodeGraph.Project.Sources
import CodeGraph.Proofs.Ast.Forest
import CodeGraph.Proofs.Ast.Links
import CodeGraph.Proofs.Ast.Numbered
import CodeGraph.Proofs.Attempt
import CodeGraph.Proofs.Conversion.Coherence
import CodeGraph.Proofs.Conversion.Edges
import CodeGraph.Proofs.Conversion.Outcome
import CodeGraph.Proofs.Conversion.Vertices
import CodeGraph.Proofs.Cst.Conversion
import CodeGraph.Proofs.Cst.Links
import CodeGraph.Proofs.Cst.Order
import CodeGraph.Proofs.Cst.Shape
import CodeGraph.Proofs.EdgeWalk.Arcs
import CodeGraph.Proofs.EdgeWalk.Changes
import CodeGraph.Proofs.EdgeWalk.Depth
import CodeGraph.Proofs.EdgeWalk.Faults
import CodeGraph.Proofs.EdgeWalk.Recursion
import CodeGraph.Proofs.Lists
import CodeGraph.Proofs.Record
import CodeGraph.Proofs.SyntaxTree.Conversion
import CodeGraph.Proofs.SyntaxTree.Regular
import CodeGraph.Proofs.SyntaxTree.Shape
import CodeGraph.Proofs.SyntaxTree.View
import CodeGraph.Record
import CodeGraph.Relation
import CodeGraph.Relation.Format
import CodeGraph.SyntaxTree.Basic
import CodeGraph.SyntaxTree.View
import CodeGraph.Text.Blank
import CodeGraph.Text.Hidden
import CodeGraph.Text.Quoted
import CodeGraph.Text.Utf8
import CodeGraph.Toml.Basic
import CodeGraph.Toml.Number
import CodeGraph.Toml.Reading
import CodeGraph.Toml.Table
import CodeGraph.Toml.Text
import CodeGraph.Proofs.Ast.Multiplicity
import CodeGraph.Proofs.Cst.WellFormed
import CodeGraph.Proofs.Cst.Contraction
import CodeGraph.Proofs.SyntaxTree.Targets
import CodeGraph.Proofs.Cst.Targets
import CodeGraph.Proofs.Cst.Resolution
import CodeGraph.Proofs.Cst.Roles
import CodeGraph.Proofs.Cst.Calls
import CodeGraph.Proofs.Ast.Image
import CodeGraph.Proofs.EdgeWalk.Images
import CodeGraph.Proofs.Conversion.Concatenation
import CodeGraph.Proofs.Conversion.Images
import CodeGraph.Proofs.Conversion.Renaming
import CodeGraph.Proofs.Conversion.Projection
import CodeGraph.Proofs.Cst.Projection
import CodeGraph.Proofs.Json.Layout
import CodeGraph.Proofs.Json.Shape
import CodeGraph.Proofs.Graph.RoundTrip
import CodeGraph.Proofs.EdgeWalk.Frames
import CodeGraph.Proofs.Conversion.Frames
import CodeGraph.Proofs.Graph.Forest
import CodeGraph.Proofs.Conversion.Forest
import CodeGraph.Proofs.Cst.Extension
import CodeGraph.Proofs.Cst.Embedding
import CodeGraph.Proofs.Conversion.Properties
import CodeGraph.Proofs.Project.Files
import CodeGraph.Proofs.Project.Build
import CodeGraph.Proofs.EdgeWalk.References
import CodeGraph.Proofs.Graph.Rebuilding
import CodeGraph.Proofs.Conversion.Contents
import CodeGraph.Proofs.Conversion.Extras
import CodeGraph.Proofs.Cst.Ownership
import CodeGraph.Proofs.Cst.TypeNames
import CodeGraph.Proofs.Cst.TypeReferences
import CodeGraph.Proofs.SyntaxTree.Edits
import CodeGraph.Proofs.SyntaxTree.Histories
import CodeGraph.Proofs.SyntaxTree.Parents
import CodeGraph.Proofs.Graph.Queries
import CodeGraph.Proofs.Cst.DeclaredNames
import CodeGraph.Proofs.Cst.Errors
import CodeGraph.Proofs.Cst.Positions
import CodeGraph.Proofs.Graph.Dot
import CodeGraph.Proofs.Files.Path
import CodeGraph.Proofs.Files.Tree
import CodeGraph.Proofs.Ignore.Walk
import CodeGraph.Proofs.Project.Sources
import CodeGraph.Proofs.Ast.Traversal
import CodeGraph.Proofs.SyntaxTree.Identities
