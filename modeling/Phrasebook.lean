import Phrasebook.Argument
import Phrasebook.Cache
import Phrasebook.Catalog
import Phrasebook.CommandLine
import Phrasebook.CommandLine.Level
import Phrasebook.CommandLine.Reader
import Phrasebook.Condition
import Phrasebook.Condition.Cursor
import Phrasebook.Condition.Reader
import Phrasebook.Document.Conversion
import Phrasebook.Document.Json
import Phrasebook.Document.Json.Number
import Phrasebook.Document.Json.Reader
import Phrasebook.Document.Toml
import Phrasebook.Document.Toml.Line
import Phrasebook.Document.Toml.Reader
import Phrasebook.Document.Toml.Scalar
import Phrasebook.Document.Yaml
import Phrasebook.Document.Yaml.Lexer
import Phrasebook.Document.Yaml.Placed
import Phrasebook.Document.Yaml.Reader
import Phrasebook.Document.Yaml.Scalar
import Phrasebook.Document.Yaml.Schema
import Phrasebook.Document.Yaml.Tag
import Phrasebook.Document.Yaml.Token
import Phrasebook.Document.Yaml.Tree
import Phrasebook.Entries
import Phrasebook.Files
import Phrasebook.Files.Path
import Phrasebook.Files.Tree
import Phrasebook.Layers
import Phrasebook.Loader
import Phrasebook.Locale
import Phrasebook.Main
import Phrasebook.Messages
import Phrasebook.Number.Binary64
import Phrasebook.Number.Decimal
import Phrasebook.Number.Grid
import Phrasebook.Number.Shortest
import Phrasebook.Placeholder
import Phrasebook.Plural
import Phrasebook.Program
import Phrasebook.Proofs.AppliedVariants
import Phrasebook.Proofs.ArgumentTexts
import Phrasebook.Proofs.BytePositions
import Phrasebook.Proofs.CacheCalls
import Phrasebook.Proofs.CacheRuns
import Phrasebook.Proofs.CachedLoads
import Phrasebook.Proofs.CatalogLeaves
import Phrasebook.Proofs.CatalogPaths
import Phrasebook.Proofs.CatalogPlaces
import Phrasebook.Proofs.ConditionGrammar
import Phrasebook.Proofs.ConditionReading
import Phrasebook.Proofs.CursorReading
import Phrasebook.Proofs.DefaultLocales
import Phrasebook.Proofs.DirectoryLayers
import Phrasebook.Proofs.DocumentKinds
import Phrasebook.Proofs.EnoughForms
import Phrasebook.Proofs.EqualNumbers
import Phrasebook.Proofs.FailingSources
import Phrasebook.Proofs.FinalTexts
import Phrasebook.Proofs.Identifiers
import Phrasebook.Proofs.InfiniteMagnitudes
import Phrasebook.Proofs.IntegerCounts
import Phrasebook.Proofs.JsonCatalogs
import Phrasebook.Proofs.JsonPaths
import Phrasebook.Proofs.LastArguments
import Phrasebook.Proofs.LayeredLoads
import Phrasebook.Proofs.LayeredMessages
import Phrasebook.Proofs.LoadSequences
import Phrasebook.Proofs.MalformedOffsets
import Phrasebook.Proofs.MessageVariants
import Phrasebook.Proofs.NearestMagnitudes
import Phrasebook.Proofs.PeriodicCategories
import Phrasebook.Proofs.PlainNumerals
import Phrasebook.Proofs.PluralCategories
import Phrasebook.Proofs.PrintedConditions
import Phrasebook.Proofs.ProbeFiles
import Phrasebook.Proofs.Recency
import Phrasebook.Proofs.RegionalTags
import Phrasebook.Proofs.Runs
import Phrasebook.Proofs.SavedLoads
import Phrasebook.Proofs.Segmentation
import Phrasebook.Proofs.SharedEntries
import Phrasebook.Proofs.ShortestSearch
import Phrasebook.Proofs.SingleFlight
import Phrasebook.Proofs.TaggedValues
import Phrasebook.Proofs.ThreadSteps
import Phrasebook.Proofs.TranslateCommand
import Phrasebook.Proofs.TranslatedLeaves
import Phrasebook.Proofs.TransparentCaches
import Phrasebook.Proofs.TypedIntegers
import Phrasebook.Proofs.TypedParameters
import Phrasebook.Proofs.UnusedEntries
import Phrasebook.Proofs.UnwritableConditions
import Phrasebook.Proofs.VariantChoice
import Phrasebook.Proofs.VariantOrder
import Phrasebook.Proofs.WholeDecimals
import Phrasebook.Proofs.WholeNumbers
import Phrasebook.Proofs.WrittenForms
import Phrasebook.Settings
import Phrasebook.Settings.Reader
import Phrasebook.Snapshots
import Phrasebook.Snapshots.Threads
import Phrasebook.Substitution
import Phrasebook.Text.Blank
import Phrasebook.Text.Hex
import Phrasebook.Text.Split
import Phrasebook.Translator
import Phrasebook.Variants
import Phrasebook.Workspace
import Phrasebook.Workspace.Registry
import Phrasebook.Workspace.Step
