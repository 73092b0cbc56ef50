import HanVariants.Inference
import HanVariants.Builder
import HanVariants.Words.Index
import HanVariants.Proofs.Words.Index
import HanVariants.Proofs.Converter
import HanVariants.Proofs.Builder
import HanVariants.Proofs.Markup.Nesting
import HanVariants.Proofs.Markup.Conversion
import HanVariants.Proofs.Markup.Spans
import HanVariants.Proofs.Markup.Page
import HanVariants.Proofs.Rule.Items
import HanVariants.Proofs.Markup.Edits
import HanVariants.Proofs.Markup.Protection
import HanVariants.Proofs.Overlay
import HanVariants.Proofs.Boundary
import HanVariants.Proofs.Inference
import HanVariants.Proofs.Rule.Opening
import HanVariants.Proofs.Rule.Written
import HanVariants.Proofs.Rule.Separators
import HanVariants.Proofs.Rule.Respelling
import HanVariants.Proofs.Refusal
import HanVariants.Proofs.Rule.Pairs
import HanVariants.Proofs.Words.Calls
import HanVariants.Proofs.Markup.Variants
import HanVariants.Proofs.Journal
import HanVariants.Proofs.Words.Structure
