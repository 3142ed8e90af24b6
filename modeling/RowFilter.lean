import RowFilter.Compile
import RowFilter.Filter.Stored
import RowFilter.Json.Reader
import RowFilter.Proofs.AliasMap
import RowFilter.Proofs.Filter.Conflict
import RowFilter.Proofs.Filter.Contribution
import RowFilter.Proofs.Filter.Faults
import RowFilter.Proofs.Filter.Meaning
import RowFilter.Proofs.Filter.Placement
import RowFilter.Proofs.Filter.Shape
import RowFilter.Proofs.Filter.Storing
import RowFilter.Proofs.Filter.Writing
import RowFilter.Proofs.QueryString.Addressing
import RowFilter.Proofs.QueryString.Appending
import RowFilter.Proofs.QueryString.Bounds
import RowFilter.Proofs.QueryString.Indexing
import RowFilter.Proofs.QueryString.Isolation
import RowFilter.Proofs.QueryString.Listing
import RowFilter.Proofs.QueryString.Numeral
import RowFilter.Proofs.QueryString.Order
import RowFilter.Proofs.QueryString.Pieces
import RowFilter.Proofs.QueryString.Reached
import RowFilter.Proofs.QueryString.Repetition
import RowFilter.Proofs.QueryString.Segmentation
import RowFilter.Proofs.Schema.Additivity
import RowFilter.Proofs.Schema.Agreement
import RowFilter.Proofs.Schema.Gate
import RowFilter.Proofs.Schema.Issues
import RowFilter.Proofs.Schema.Typing
import RowFilter.Proofs.Schema.Widening
import RowFilter.Proofs.Sql.Fragment
import RowFilter.Proofs.Sql.Placeholder
import RowFilter.Proofs.Sql.Qualification
import RowFilter.Proofs.Sql.Relocation
import RowFilter.Proofs.Sql.Rewriting
import RowFilter.Proofs.Sql.Rows
import RowFilter.Proofs.Sql.Stage
import RowFilter.Proofs.Sql.Vouched
import RowFilter.Schema.Check
import RowFilter.Schema.Document
import RowFilter.Sql.Fragment
