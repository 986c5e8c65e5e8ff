import ShaclExtract.Main
import ShaclExtract.Path.Writing
import ShaclExtract.Shape.Declaration
import ShaclExtract.Proofs.Dialogue.Atomicity
import ShaclExtract.Proofs.Memo.Resolution
import ShaclExtract.Proofs.Path.Forms
import ShaclExtract.Proofs.Path.Legibility
import ShaclExtract.Proofs.Path.Regrouping
import ShaclExtract.Proofs.Path.Relation
import ShaclExtract.Proofs.Path.Reordering
import ShaclExtract.Proofs.Path.Repetition
import ShaclExtract.Proofs.Path.Writing
import ShaclExtract.Proofs.Rdf.Description
import ShaclExtract.Proofs.Schema.Circularity
import ShaclExtract.Proofs.Schema.Declared
import ShaclExtract.Proofs.Schema.Descriptions
import ShaclExtract.Proofs.Schema.Environment
import ShaclExtract.Proofs.Schema.History
import ShaclExtract.Proofs.Schema.Location
import ShaclExtract.Proofs.Schema.Relabelling
import ShaclExtract.Proofs.Schema.Separation
import ShaclExtract.Proofs.Schema.Subclasses
import ShaclExtract.Proofs.Schema.Transformation
import ShaclExtract.Proofs.Schema.Transparency
import ShaclExtract.Proofs.Schema.Typed
import ShaclExtract.Proofs.Shape.Malformed
