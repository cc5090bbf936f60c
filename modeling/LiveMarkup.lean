import LiveMarkup.Main
import LiveMarkup.Script.Session
import LiveMarkup.Template.Cache
import LiveMarkup.Proofs.Markup.Heads
import LiveMarkup.Proofs.Markup.Steps
import LiveMarkup.Proofs.Markup.Written
import LiveMarkup.Proofs.Markup.Building
import LiveMarkup.Proofs.Markup.Canonical
import LiveMarkup.Proofs.Markup.Reading
import LiveMarkup.Proofs.Markup.Normal
import LiveMarkup.Proofs.Markup.Marked
import LiveMarkup.Proofs.Markup.Apart
import LiveMarkup.Proofs.Template.Leads
import LiveMarkup.Proofs.Template.Draft
import LiveMarkup.Proofs.Template.Positions
import LiveMarkup.Proofs.Template.Owners
import LiveMarkup.Proofs.Template.Documents
import LiveMarkup.Proofs.Template.Agreement
import LiveMarkup.Proofs.Template.Scanning
import LiveMarkup.Proofs.Template.Rendering
import LiveMarkup.Proofs.Template.Pipeline
import LiveMarkup.Proofs.Template.Bindings
import LiveMarkup.Proofs.Escape.Entities
import LiveMarkup.Proofs.Escape.Marks
import LiveMarkup.Proofs.Escape.Bodies
import LiveMarkup.Proofs.Json.Reading
import LiveMarkup.Proofs.Json.Apostrophes
import LiveMarkup.Proofs.Element.Attributes
import LiveMarkup.Proofs.Element.Binding
import LiveMarkup.Proofs.Hydration.Completeness
import LiveMarkup.Proofs.Live.Updates
import LiveMarkup.Proofs.Live.Cleanups
import LiveMarkup.Proofs.Live.Detaching
import LiveMarkup.Proofs.Markup.Places
import LiveMarkup.Proofs.Template.Form
import LiveMarkup.Proofs.Template.Comments
import LiveMarkup.Proofs.Markup.Lacking
import LiveMarkup.Proofs.Template.Dropping
import LiveMarkup.Proofs.Live.Alternation
import LiveMarkup.Proofs.Live.Coalescing
import LiveMarkup.Proofs.Live.LayoutFirst
import LiveMarkup.Proofs.Template.Layout
import LiveMarkup.Proofs.Template.Spelling
import LiveMarkup.Proofs.Hydration.Idempotence
import LiveMarkup.Proofs.Hydration.Registrations
import LiveMarkup.Proofs.Markup.Order
import LiveMarkup.Proofs.Markup.Shapes
import LiveMarkup.Proofs.Template.Placeholders
import LiveMarkup.Proofs.Template.Faults
import LiveMarkup.Proofs.Template.AttributePattern
import LiveMarkup.Proofs.Settle.Waits
import LiveMarkup.Proofs.Settle.Polls
import LiveMarkup.Proofs.Template.Slots
import LiveMarkup.Proofs.Settle.Leftovers
import LiveMarkup.Proofs.Template.ClientOnly
import LiveMarkup.Proofs.Template.JsonValues
import LiveMarkup.Proofs.Template.Nesting
import LiveMarkup.Proofs.Markup.Writers
import LiveMarkup.Proofs.Markup.AttributeList
import LiveMarkup.Proofs.Markup.Lexing
import LiveMarkup.Proofs.Live.SlotHistories
import LiveMarkup.Proofs.Element.Coercion
import LiveMarkup.Proofs.Element.Paths
import LiveMarkup.Proofs.Json.Equality
import LiveMarkup.Proofs.Live.Records
import LiveMarkup.Proofs.Live.Dependencies
import LiveMarkup.Proofs.Live.HookDependencies
import LiveMarkup.Proofs.Live.Outputs
import LiveMarkup.Proofs.Decimal.Literals
import LiveMarkup.Proofs.Decimal.Layouts
import LiveMarkup.Proofs.Template.Fetches
