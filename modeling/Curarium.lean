import Curarium.Json.RoundTrip
import Curarium.Library.Cells
import Curarium.Collection.Wildcard
import Curarium.Collection.Stray
import Curarium.Views.OriginalSection
import Curarium.Workers.Configure
import Curarium.Work.Save
import Curarium.Library.Runs
import Curarium.Workers.Import
import Curarium.Workers.Images
import Curarium.Workers.Reconfigure
import Curarium.Workers.Reimport
import Curarium.Library.Pairing
import Curarium.Workers.Pairing
import Curarium.Work.Special
import Curarium.Library.Transducer
import Curarium.Sql.Lexer
import Curarium.Rails.Sanitize
import Curarium.Works.Index
import Curarium.Works.Clause
import Curarium.Sql.Literal
import Curarium.Works.Tokens
import Curarium.Works.Injection
import Curarium.Library.Kleene
import Curarium.Sql.Condition
import Curarium.Works.Filter
import Curarium.Library.Tables
import Curarium.Trays.Requests
import Curarium.Trays.Refers
import Curarium.Trays.Sets
import Curarium.Circles.Policy
import Curarium.Circles.Members
import Curarium.Circles.Scopes
import Curarium.Sql.Select
import Curarium.Works.WellFormed
import Curarium.Collections.Admins
import Curarium.Collections.Hidden
import Curarium.Collections.Leaks
import Curarium.Library.Rounding
import Curarium.Json.Script
import Curarium.Collection.Preview
import Curarium.ObjectMap.Requests
import Curarium.ObjectMap.Coherence
import Curarium.Library.Delimited
import Curarium.Library.Pages
import Curarium.Works.Paging
import Curarium.Works.Colorfilter
import Curarium.Library.Chains
import Curarium.Amendments.Chain
import Curarium.Work.Show
import Curarium.Work.Visits
import Curarium.Works.VisControls
import Curarium.Works.Resubmit
import Curarium.Trays.Contents
import Curarium.Trays.Dangling
import Curarium.Collections.Covers
import Curarium.Circles.Trays
import Curarium.Library.Grid
import Curarium.ObjectMap.Clicks
import Curarium.Ruby.Pathname
import Curarium.Work.Annotations
import Curarium.Collections.Archive
import Curarium.Collections.Extraction
import Curarium.Workers.Thumbnails
import Curarium.Html.Tokens
import Curarium.Works.Panel
import Curarium.Library.Pieces
import Curarium.Sql.Strings
import Curarium.Works.Blocks
import Curarium.Works.Drilldown
import Curarium.Library.Weights
import Curarium.Works.Items
import Curarium.Works.Decode
import Curarium.Works.Narrow
import Curarium.Library.Largest
import Curarium.Trays.InCircle
import Curarium.Collection.Present
import Curarium.Library.Calls
import Curarium.Work.Colors
import Curarium.Collection.Properties
import Curarium.Collection.Samples
import Curarium.Library.Checksums
import Curarium.ObjectMap.QueryIds
import Curarium.Json.Generate
import Curarium.Collections.Originals
import Curarium.Workers.ThumbCache
import Curarium.Works.Search
import Curarium.ObjectMap.Importing
import Curarium.Collections.Fields
