import OpenApiClient.Bundle
import OpenApiClient.Bundle.Pointer
import OpenApiClient.Client.Backbone
import OpenApiClient.Client.Endpoint
import OpenApiClient.Client.Error
import OpenApiClient.Client.Generation
import OpenApiClient.Client.Inspection
import OpenApiClient.Client.Log
import OpenApiClient.Client.Model
import OpenApiClient.Client.Model.Declaration
import OpenApiClient.Client.Model.EmptyValue
import OpenApiClient.Client.Model.Inheritance
import OpenApiClient.Client.Model.Module
import OpenApiClient.Client.Pass
import OpenApiClient.Client.Replacement
import OpenApiClient.Client.Run
import OpenApiClient.Client.Settings
import OpenApiClient.Client.Settings.File
import OpenApiClient.Client.SignalConstruction
import OpenApiClient.Client.Subscription
import OpenApiClient.Client.Transfer
import OpenApiClient.Client.TypeMapping
import OpenApiClient.Client.Union
import OpenApiClient.Client.Wrapper
import OpenApiClient.CommandLine.Arguments
import OpenApiClient.CommandLine.Report
import OpenApiClient.Decimal.Double
import OpenApiClient.Decimal.Power
import OpenApiClient.Decimal.Shortest
import OpenApiClient.Entries
import OpenApiClient.Files
import OpenApiClient.Json.Number
import OpenApiClient.Json.Printer
import OpenApiClient.Json.Reader
import OpenApiClient.Json.Value
import OpenApiClient.Main
import OpenApiClient.Module.Bindings
import OpenApiClient.Module.Exports
import OpenApiClient.Module.File
import OpenApiClient.Module.Imports
import OpenApiClient.Module.Scope
import OpenApiClient.Module.Specifier
import OpenApiClient.Naming
import OpenApiClient.OpenApi.Document
import OpenApiClient.OpenApi.Document.Reader
import OpenApiClient.OpenApi.Document.Text
import OpenApiClient.OpenApi.Document.Writer
import OpenApiClient.OpenApi.OperationName
import OpenApiClient.OpenApi.Reference
import OpenApiClient.OpenApi.Schema
import OpenApiClient.OpenApi.Schema.Reader
import OpenApiClient.OpenApi.Schema.Writer
import OpenApiClient.OpenApi.Validation
import OpenApiClient.Proofs.Arity
import OpenApiClient.Proofs.Bundling
import OpenApiClient.Proofs.CaseForms
import OpenApiClient.Proofs.Chains
import OpenApiClient.Proofs.Collation
import OpenApiClient.Proofs.Comments
import OpenApiClient.Proofs.Declarations
import OpenApiClient.Proofs.Defaults
import OpenApiClient.Proofs.Discriminators
import OpenApiClient.Proofs.DocumentEncoding
import OpenApiClient.Proofs.EmptyValues
import OpenApiClient.Proofs.Ends
import OpenApiClient.Proofs.Entries
import OpenApiClient.Proofs.Enumerations
import OpenApiClient.Proofs.ExportNames
import OpenApiClient.Proofs.Failures
import OpenApiClient.Proofs.Flattening
import OpenApiClient.Proofs.Frames
import OpenApiClient.Proofs.FreshName
import OpenApiClient.Proofs.Generation
import OpenApiClient.Proofs.ImportHistory
import OpenApiClient.Proofs.ImportStatements
import OpenApiClient.Proofs.Imports
import OpenApiClient.Proofs.Inheritance
import OpenApiClient.Proofs.Inspection
import OpenApiClient.Proofs.KnownFiles
import OpenApiClient.Proofs.Leaves
import OpenApiClient.Proofs.LiteralKeys
import OpenApiClient.Proofs.LiteralTypes
import OpenApiClient.Proofs.Literals
import OpenApiClient.Proofs.Loading
import OpenApiClient.Proofs.LocalReferences
import OpenApiClient.Proofs.Methods
import OpenApiClient.Proofs.ModelImports
import OpenApiClient.Proofs.Models
import OpenApiClient.Proofs.Nullability
import OpenApiClient.Proofs.Occurrences
import OpenApiClient.Proofs.Opening
import OpenApiClient.Proofs.Operations
import OpenApiClient.Proofs.OutputPlaces
import OpenApiClient.Proofs.Owners
import OpenApiClient.Proofs.Parameters
import OpenApiClient.Proofs.Passes
import OpenApiClient.Proofs.Passing
import OpenApiClient.Proofs.Pinning
import OpenApiClient.Proofs.Pointers
import OpenApiClient.Proofs.Pruning
import OpenApiClient.Proofs.Reach
import OpenApiClient.Proofs.RelativePaths
import OpenApiClient.Proofs.Rewriting
import OpenApiClient.Proofs.Runs
import OpenApiClient.Proofs.Scanning
import OpenApiClient.Proofs.Schema
import OpenApiClient.Proofs.Service
import OpenApiClient.Proofs.Shadowing
import OpenApiClient.Proofs.SharedModules
import OpenApiClient.Proofs.Signatures
import OpenApiClient.Proofs.Sources
import OpenApiClient.Proofs.Specifiers
import OpenApiClient.Proofs.Stability
import OpenApiClient.Proofs.Steps
import OpenApiClient.Proofs.Taking
import OpenApiClient.Proofs.TakingOnce
import OpenApiClient.Proofs.Telling
import OpenApiClient.Proofs.TopLevel
import OpenApiClient.Proofs.Types
import OpenApiClient.Proofs.Unfolding
import OpenApiClient.Proofs.Unions
import OpenApiClient.Proofs.UniqueReading
import OpenApiClient.Proofs.UsableNames
import OpenApiClient.Proofs.Valid
import OpenApiClient.Proofs.Visits
import OpenApiClient.Proofs.Wrappers
import OpenApiClient.Proofs.Writing
import OpenApiClient.Proofs.WrittenNames
import OpenApiClient.Proofs.Yields
import OpenApiClient.Source.Extent
import OpenApiClient.Source.Record
import OpenApiClient.Source.Tree
import OpenApiClient.Text.Alphabetic
import OpenApiClient.Text.Blank
import OpenApiClient.Text.CaseMap
import OpenApiClient.Text.Cased
import OpenApiClient.Text.Collate
import OpenApiClient.Text.Letter
import OpenApiClient.Text.Numeric
import OpenApiClient.Text.Runs
import OpenApiClient.Text.Split
import OpenApiClient.Text.Words
import OpenApiClient.TypeScript.Comment
import OpenApiClient.TypeScript.Declaration
import OpenApiClient.TypeScript.Identifier
import OpenApiClient.TypeScript.Literal
import OpenApiClient.TypeScript.Printer
import OpenApiClient.TypeScript.Type
import OpenApiClient.Yaml.Atom
import OpenApiClient.Yaml.Input
import OpenApiClient.Yaml.Node
import OpenApiClient.Yaml.Printer
import OpenApiClient.Yaml.Reader
import OpenApiClient.Yaml.Tag
import OpenApiClient.Yaml.Token
import OpenApiClient.Yaml.Token.Lexer
import OpenApiClient.Yaml.Token.Scalar
