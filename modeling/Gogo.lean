import Gogo.Migrations.Columns
import Gogo.Management.Generation
import Gogo.SqlCompiler.Having
import Gogo.Async.Beat
import Gogo.Api.Cursor
import Gogo.Templates.Source
import Gogo.Templates.Inheritance
import Gogo.Templates.Conditions
import Gogo.Db.Confinement
import Gogo.Api.ExactlyOnce
import Gogo.Redirects.Path
import Gogo.Security.Forwarded
import Gogo.Auth.Reports
import Gogo.Migrations.Reversal
import Gogo.Migrations.RenameBack
import Gogo.SqlCompiler.TextLookups
import Gogo.Models.Decimals
import Gogo.Async.Startable
import Gogo.Async.Recording
import Gogo.Serialization.Numbers
import Gogo.Files.Range
import Gogo.Async.Counter
import Gogo.Async.Outcomes
import Gogo.Auth.PasswordChange
