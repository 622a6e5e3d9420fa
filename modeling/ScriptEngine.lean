import ScriptEngine.Engine
import ScriptEngine.Proofs.Courses.Folding
import ScriptEngine.Proofs.Courses.Iterators
import ScriptEngine.Proofs.Equality.Bisimilarity
import ScriptEngine.Proofs.Hosting.Errors
import ScriptEngine.Proofs.Nesting.Chain
import ScriptEngine.Proofs.Pieces.Breaks
import ScriptEngine.Proofs.Pieces.Conditions
import ScriptEngine.Proofs.Reentry.Parameters
import ScriptEngine.Proofs.Reentry.Returns
import ScriptEngine.Proofs.Safety.Brackets
import ScriptEngine.Proofs.Safety.Engines
import ScriptEngine.Proofs.Scoping.Blocks
import ScriptEngine.Proofs.Scoping.Chains
import ScriptEngine.Proofs.Scoping.Closures
import ScriptEngine.Proofs.Scoping.Instructions
import ScriptEngine.Proofs.Scoping.Lexical
import ScriptEngine.Proofs.Scoping.Passes
import ScriptEngine.Proofs.Scoping.Places
import ScriptEngine.Proofs.Scoping.Programs
import ScriptEngine.Proofs.Syntax.Climbing
import ScriptEngine.Proofs.Syntax.Promises
import ScriptEngine.Proofs.Syntax.Refolding
import ScriptEngine.Proofs.Tables.Shifting
import ScriptEngine.Proofs.Tables.Sorting
import ScriptEngine.Proofs.Tables.Traversal
import ScriptEngine.Proofs.Text.Ranges
import ScriptEngine.Proofs.Token.Boundaries
import ScriptEngine.Proofs.Token.Escapes
import ScriptEngine.Proofs.Token.Lookahead
import ScriptEngine.Proofs.Token.Numerals
import ScriptEngine.Proofs.Token.Spelling
import ScriptEngine.Proofs.Transparency.Engines
