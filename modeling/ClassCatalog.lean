import ClassCatalog.Action
import ClassCatalog.Archive.Checksum
import ClassCatalog.Archive.Content
import ClassCatalog.Archive.Deflate
import ClassCatalog.Archive.Directory
import ClassCatalog.Archive.Format
import ClassCatalog.Bytes
import ClassCatalog.Cache.ByteCache
import ClassCatalog.Cache.FileCache
import ClassCatalog.Cache.Supplied
import ClassCatalog.Catalog.Hierarchy
import ClassCatalog.Catalog.Lookup
import ClassCatalog.Catalog.Region
import ClassCatalog.Catalog.Request
import ClassCatalog.Catalog.State
import ClassCatalog.ClassFile.Attribute
import ClassCatalog.ClassFile.ConstantPool
import ClassCatalog.ClassFile.Instruction
import ClassCatalog.ClassFile.LineTable
import ClassCatalog.ClassFile.MethodLayout
import ClassCatalog.ClassFile.Parse
import ClassCatalog.ClassFile.Reader
import ClassCatalog.ClassFile.Record
import ClassCatalog.ClassFile.Variable
import ClassCatalog.ClassFile.Version
import ClassCatalog.ClassPath.Components
import ClassCatalog.ClassPath.Pool
import ClassCatalog.ClassPath.Search
import ClassCatalog.Client
import ClassCatalog.Config
import ClassCatalog.Error
import ClassCatalog.Files.Tree
import ClassCatalog.Json
import ClassCatalog.Loaded.Basic
import ClassCatalog.Loaded.Body
import ClassCatalog.Loaded.Population
import ClassCatalog.Loaded.StackMap
import ClassCatalog.Loader
import ClassCatalog.Name
import ClassCatalog.Path
import ClassCatalog.Proofs.Action
import ClassCatalog.Proofs.Bytes
import ClassCatalog.Proofs.Cache.Closing
import ClassCatalog.Proofs.Cache.Direct
import ClassCatalog.Proofs.Cache.Gap
import ClassCatalog.Proofs.Cache.Mirror
import ClassCatalog.Proofs.Cache.Probe
import ClassCatalog.Proofs.Cache.Recency
import ClassCatalog.Proofs.Cache.Slots
import ClassCatalog.Proofs.Cache.Sound
import ClassCatalog.Proofs.Cache.Supplied
import ClassCatalog.Proofs.Catalog.Bookkeeping
import ClassCatalog.Proofs.Catalog.Delegation
import ClassCatalog.Proofs.Catalog.Descent
import ClassCatalog.Proofs.Catalog.Distinct
import ClassCatalog.Proofs.Catalog.Enroll
import ClassCatalog.Proofs.Catalog.Evolution
import ClassCatalog.Proofs.Catalog.Failure
import ClassCatalog.Proofs.Catalog.Fitting
import ClassCatalog.Proofs.Catalog.Group
import ClassCatalog.Proofs.Catalog.Intact
import ClassCatalog.Proofs.Catalog.Joined
import ClassCatalog.Proofs.Catalog.Later
import ClassCatalog.Proofs.Catalog.Links
import ClassCatalog.Proofs.Catalog.Loading
import ClassCatalog.Proofs.Catalog.Lookup
import ClassCatalog.Proofs.Catalog.Nested
import ClassCatalog.Proofs.Catalog.Promotion
import ClassCatalog.Proofs.Catalog.Quiet
import ClassCatalog.Proofs.Catalog.Regions
import ClassCatalog.Proofs.Catalog.Renumbered
import ClassCatalog.Proofs.Catalog.Renumbering
import ClassCatalog.Proofs.Catalog.Reports
import ClassCatalog.Proofs.Catalog.Reset
import ClassCatalog.Proofs.Catalog.Root
import ClassCatalog.Proofs.Catalog.Run
import ClassCatalog.Proofs.Catalog.Search
import ClassCatalog.Proofs.Catalog.Sources
import ClassCatalog.Proofs.Catalog.Stability
import ClassCatalog.Proofs.Catalog.Steps
import ClassCatalog.Proofs.Catalog.Supplies
import ClassCatalog.Proofs.Catalog.Telling
import ClassCatalog.Proofs.Catalog.Tidy
import ClassCatalog.Proofs.Catalog.Traversal
import ClassCatalog.Proofs.Catalog.Within
import ClassCatalog.Proofs.ClassFile.Accepted
import ClassCatalog.Proofs.ClassFile.Agreement
import ClassCatalog.Proofs.ClassFile.Assembly
import ClassCatalog.Proofs.ClassFile.Bytecode
import ClassCatalog.Proofs.ClassFile.Closest
import ClassCatalog.Proofs.ClassFile.Confined
import ClassCatalog.Proofs.ClassFile.Containment
import ClassCatalog.Proofs.ClassFile.Coverage
import ClassCatalog.Proofs.ClassFile.Image
import ClassCatalog.Proofs.ClassFile.Inside
import ClassCatalog.Proofs.ClassFile.Instructions
import ClassCatalog.Proofs.ClassFile.Layout
import ClassCatalog.Proofs.ClassFile.Lines
import ClassCatalog.Proofs.ClassFile.Members
import ClassCatalog.Proofs.ClassFile.Names
import ClassCatalog.Proofs.ClassFile.Offsets
import ClassCatalog.Proofs.ClassFile.Parse
import ClassCatalog.Proofs.ClassFile.Pool
import ClassCatalog.Proofs.ClassFile.Prefix
import ClassCatalog.Proofs.ClassFile.Reads
import ClassCatalog.Proofs.ClassFile.References
import ClassCatalog.Proofs.ClassFile.Sections
import ClassCatalog.Proofs.ClassFile.Slots
import ClassCatalog.Proofs.ClassFile.Versions
import ClassCatalog.Proofs.ClassPath.Contents
import ClassCatalog.Proofs.ClassPath.Eager
import ClassCatalog.Proofs.ClassPath.Located
import ClassCatalog.Proofs.ClassPath.Reads
import ClassCatalog.Proofs.ClassPath.Recent
import ClassCatalog.Proofs.ClassPath.Splitting
import ClassCatalog.Proofs.Files.Paths
import ClassCatalog.Proofs.Files.Tree
import ClassCatalog.Proofs.Loaded.Calls
import ClassCatalog.Proofs.Loaded.Failure
import ClassCatalog.Proofs.Loaded.Fresh
import ClassCatalog.Proofs.Loaded.Inside
import ClassCatalog.Proofs.Loaded.Instrumented
import ClassCatalog.Proofs.Loaded.Notes
import ClassCatalog.Proofs.Loaded.Original
import ClassCatalog.Proofs.Loaded.Reservations
import ClassCatalog.Proofs.Loaded.StackMap
import ClassCatalog.Proofs.Loader
import ClassCatalog.Proofs.Loader.Ancestry
import ClassCatalog.Proofs.Name
import ClassCatalog.Proofs.StackMap.Changes
import ClassCatalog.Proofs.StackMap.Codec
import ClassCatalog.Proofs.StackMap.Commuting
import ClassCatalog.Proofs.StackMap.Interrupted
import ClassCatalog.Proofs.StackMap.Shift
import ClassCatalog.Proofs.Table
import ClassCatalog.StackMap.Edit
import ClassCatalog.StackMap.Frame
import ClassCatalog.StackMap.Table
import ClassCatalog.Table
import ClassCatalog.Text.Blank
import ClassCatalog.Text.CodePage437
import ClassCatalog.Text.Encoding
import ClassCatalog.Text.ModifiedUtf8
import ClassCatalog.Text.Quoted
import ClassCatalog.Text.Utf8
