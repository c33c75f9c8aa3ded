import DerivativeParsing.Forest.Derivation
import DerivativeParsing.Forest.Extraction
import DerivativeParsing.Grammar.Display
import DerivativeParsing.Grammar.Dot
import DerivativeParsing.Grammar.Matches
import DerivativeParsing.Proofs.Grounded
import DerivativeParsing.Proofs.Lexemes
import DerivativeParsing.Proofs.Making
import DerivativeParsing.Proofs.Nesting
import DerivativeParsing.Proofs.Refusing
import DerivativeParsing.Proofs.Reordering
import DerivativeParsing.Proofs.Rereading
import DerivativeParsing.Proofs.Verdicts
import DerivativeParsing.Recognizer
import DerivativeParsing.Proofs.Relocation
import DerivativeParsing.Proofs.Deeds
import DerivativeParsing.Proofs.Steadiness
import DerivativeParsing.Proofs.Ledgers
import DerivativeParsing.Proofs.Compacting
import DerivativeParsing.Proofs.Handing
import DerivativeParsing.Proofs.Enumerating
import DerivativeParsing.Proofs.Origins
import DerivativeParsing.Proofs.Preserving
import DerivativeParsing.Proofs.Faults
import DerivativeParsing.Proofs.Counting
import DerivativeParsing.Proofs.Bookkeeping
import DerivativeParsing.Proofs.Naming
import DerivativeParsing.Proofs.Spelling
import DerivativeParsing.Proofs.Drawings
import DerivativeParsing.Proofs.Growth
import DerivativeParsing.Proofs.Locating
import DerivativeParsing.Proofs.Sliding
